import ByteKV.Networking

/-! What the callbacks of one connection can do, said once: to the bytes queued for the
socket, and to the calls of command_execute behind them. -/
namespace ByteKV.Networking
open Config Command Framing

/-- The stream the client is sent: what the socket took, then what waits. -/
def Conn.output (s : Conn) : Bytes := s.sent ++ s.client.unsent

def acceptedData (calls : List (Bytes × Bool)) : Bytes :=
  ((calls.filter Prod.snd).map Prod.fst).flatten

theorem acceptedData_append (calls calls' : List (Bytes × Bool)) :
    acceptedData (calls ++ calls') = acceptedData calls ++ acceptedData calls' := by
  simp [acceptedData]

def Conn.Bounded (s : Conn) : Prop := s.client.woff ≤ s.client.wbuf.length

def Call.Fits (call : Call) : Prop :=
  call.pending + (frameHdrSize + call.response.length) ≤ wbufSize

instance (call : Call) : Decidable call.Fits := inferInstanceAs (Decidable (_ ≤ _))

/-- Only commands and the write side came between `s` and `s'`: these calls of
`command_execute` and these of `queue_write`. -/
structure Moved (s s' : Conn) (calls : List Call) (sends : List (Bytes × Bool)) : Prop where
  active : s'.client.active = s.client.active
  buf : s'.client.buf = s.client.buf
  received : s'.received = s.received
  readHandler : s'.readHandler = s.readHandler
  clientsCount : s'.clientsCount = s.clientsCount
  bounded : s'.Bounded
  handed : s'.handed = s.handed ++ calls
  queued : s'.queued = s.queued ++ sends
  output : s'.output = s.output ++ acceptedData sends

theorem Moved.refl {s : Conn} (bounded : s.Bounded) : Moved s s [] [] :=
  ⟨rfl, rfl, rfl, rfl, rfl, bounded, (List.append_nil _).symm, (List.append_nil _).symm,
    (List.append_nil _).symm⟩

theorem Moved.trans {s s' s'' : Conn} {calls calls' : List Call}
    {sends sends' : List (Bytes × Bool)}
    (a : Moved s s' calls sends) (b : Moved s' s'' calls' sends') :
    Moved s s'' (calls ++ calls') (sends ++ sends') where
  active := b.active.trans a.active
  buf := b.buf.trans a.buf
  received := b.received.trans a.received
  readHandler := b.readHandler.trans a.readHandler
  clientsCount := b.clientsCount.trans a.clientsCount
  bounded := b.bounded
  handed := by rw [b.handed, a.handed, List.append_assoc]
  queued := by rw [b.queued, a.queued, List.append_assoc]
  output := by rw [b.output, a.output, acceptedData_append, List.append_assoc]

theorem elAddWrite_moved (registered : Bool) {s : Conn} (bounded : s.Bounded) :
    Moved s (elAddWrite registered s) [] [] := by
  obtain ⟨h1, h2, h3, h4, h5, h6, h7, h8, h9⟩ := Moved.refl bounded
  cases registered with
  | false => exact ⟨h1, h2, h3, h4, h5, h6, h7, h8, h9⟩
  | true => exact ⟨h1, h2, h3, h4, h5, h6, h7, h8, h9⟩

theorem elRemoveWrite_moved {s : Conn} (bounded : s.Bounded) : Moved s (elRemoveWrite s) [] [] := by
  obtain ⟨h1, h2, h3, h4, h5, h6, h7, h8, h9⟩ := Moved.refl bounded
  exact ⟨h1, h2, h3, h4, h5, h6, h7, h8, h9⟩

theorem advance_moved (n : Nat) {s : Conn} (bounded : s.Bounded) : Moved s (advance n s) [] [] where
  active := rfl
  buf := rfl
  received := rfl
  readHandler := rfl
  clientsCount := rfl
  bounded := by
    have taken : (s.client.unsent.take n).length ≤ s.client.wbuf.length - s.client.woff := by
      simp [Client.unsent]
    have bounded : s.client.woff ≤ s.client.wbuf.length := bounded
    change s.client.woff + (s.client.unsent.take n).length ≤ s.client.wbuf.length
    omega
  handed := (List.append_nil _).symm
  queued := (List.append_nil _).symm
  output := by
    have split : s.client.unsent.take n ++ s.client.unsent.drop (s.client.unsent.take n).length =
        s.client.unsent :=
      (List.prefix_iff_eq_append).mp (List.take_prefix n _)
    calc
      (advance n s).output = s.sent ++ (s.client.unsent.take n ++
          s.client.unsent.drop (s.client.unsent.take n).length) := by
        simp [advance, Conn.output, Client.unsent]
      _ = s.output := by rw [split, Conn.output]
      _ = s.output ++ acceptedData [] := (List.append_nil _).symm

theorem resetWbuf_moved {s : Conn} (done : allSent s = true) : Moved s (resetWbuf s) [] [] where
  active := rfl
  buf := rfl
  received := rfl
  readHandler := rfl
  clientsCount := rfl
  bounded := Nat.le_refl 0
  handed := (List.append_nil _).symm
  queued := (List.append_nil _).symm
  output := by
    have sent : s.client.woff = s.client.wbuf.length := by simpa [allSent] using done
    simp [Conn.output, Client.unsent, resetWbuf, acceptedData, sent]

theorem compact_moved (len : Nat) {s : Conn} (bounded : s.Bounded) :
    Moved s (compact len s) [] [] := by
  rw [compact]
  split
  · refine ⟨rfl, rfl, rfl, rfl, rfl, Nat.zero_le _, (List.append_nil _).symm,
      (List.append_nil _).symm, ?_⟩
    simp [Conn.output, Client.unsent, acceptedData]
  · exact .refl bounded

theorem compact_full_iff (len : Nat) {s : Conn} (bounded : s.Bounded) :
    wbufSize < (compact len s).client.wbuf.length + len ↔
      wbufSize < s.client.unsent.length + len := by
  have bounded : s.client.woff ≤ s.client.wbuf.length := bounded
  rw [compact]
  split
  · rfl
  · rename_i roomy
    simp only [Client.unsent, List.length_drop]
    omega

theorem Moved.refused {s s' : Conn} (a : Moved s s' [] []) (data : Bytes) :
    Moved s (noteQueued data (s', false)).1 [] [(data, false)] :=
  ⟨a.active, a.buf, a.received, a.readHandler, a.clientsCount, a.bounded, a.handed,
    by rw [noteQueued, a.queued, List.append_nil], a.output⟩

theorem Moved.enqueued {s s' : Conn} (bounded : s.Bounded) (data : Bytes)
    (a : Moved { s with client := { s.client with wbuf := s.client.wbuf ++ data } } s' [] []) :
    Moved s (noteQueued data (s', true)).1 [] [(data, true)] := by
  have bounded : s.client.woff ≤ s.client.wbuf.length := bounded
  refine ⟨a.active, a.buf, a.received, a.readHandler, a.clientsCount, a.bounded, a.handed,
    by rw [noteQueued, a.queued, List.append_nil], ?_⟩
  change s'.output = _
  rw [a.output]
  simp only [Conn.output, Client.unsent, List.drop_append_of_le_length bounded, acceptedData,
    List.append_assoc]
  simp

/-- What `queue_write` can do: queue the data, find no room and change nothing, or lose
the client to an error of the direct write. -/
inductive Queued (io : SendIo) (s : Conn) (data : Bytes) : Conn × Bool → Prop
  | queued (s' : Conn) (room : s.client.unsent.length + data.length ≤ wbufSize)
      (moved : Moved s s' [] [(data, true)]) : Queued io s data (s', true)
  | full (s' : Conn) (short : wbufSize < s.client.unsent.length + data.length)
      (moved : Moved s s' [] [(data, false)]) : Queued io s data (s', false)
  | dropped (s' : Conn) (room : s.client.unsent.length + data.length ≤ wbufSize)
      (failed : io.write = .error) (moved : Moved s s' [] [(data, false)]) :
      Queued io s data (removeClient s', false)

theorem directWrite_cases (io : SendIo) {s : Conn} (bounded : s.Bounded) :
    (∃ s', directWrite io s = (s', true) ∧ Moved s s' [] []) ∨
      (io.write = .error ∧ directWrite io s = (removeClient s, false)) := by
  rw [directWrite]
  cases io.write with
  | error => exact Or.inr ⟨rfl, rfl⟩
  | again => exact Or.inl ⟨_, rfl, elAddWrite_moved _ bounded⟩
  | wrote n =>
    refine Or.inl ?_
    have taken := advance_moved n bounded
    simp only
    split
    · rename_i done
      exact ⟨_, rfl, taken.trans (resetWbuf_moved done)⟩
    · exact ⟨_, rfl, taken.trans (elAddWrite_moved _ taken.bounded)⟩

theorem queueWrite_cases (io : SendIo) {s : Conn} (bounded : s.Bounded) (data : Bytes) :
    Queued io s data (queueWrite io s data) := by
  have room := compact_full_iff data.length bounded
  have packed := compact_moved data.length bounded
  rw [queueWrite]
  generalize compact data.length s = s₀ at room packed
  split
  · rename_i short
    exact .full _ (room.mp short) (packed.refused data)
  · rename_i roomy
    have fits : s.client.unsent.length + data.length ≤ wbufSize :=
      not_lt.mp fun short => roomy (room.mpr short)
    have grown : ({ s₀ with client := { s₀.client with wbuf := s₀.client.wbuf ++ data } } :
        Conn).Bounded := by
      change s₀.client.woff ≤ (s₀.client.wbuf ++ data).length
      rw [List.length_append]
      exact Nat.le_add_right_of_le packed.bounded
    split
    · rcases directWrite_cases io grown with ⟨s', eq, moved⟩ | ⟨failed, eq⟩
      · rw [eq]
        exact .queued _ fits (packed.trans (moved.enqueued packed.bounded data))
      · rw [eq]
        exact .dropped _ fits failed (packed.refused data)
    · exact .queued _ fits
        (packed.trans ((elAddWrite_moved io.registered grown).enqueued packed.bounded data))

inductive Turn (io : FrameIo) (s : Conn) (payload : Bytes) : Conn × Bool → Prop
  | answered (s' : Conn) (call : Call) (asked : call.payload = payload) (room : call.Fits)
      (moved : Moved s s' [call] [(frame frameHdrSize call.response, true)]) :
      Turn io s payload (s', true)
  | full (s' : Conn) (call : Call) (asked : call.payload = payload) (short : ¬ call.Fits)
      (moved : Moved s s' [call] [(frame frameHdrSize call.response, false)]) :
      Turn io s payload (s', false)
  | dropped (s' : Conn) (call : Call) (asked : call.payload = payload) (room : call.Fits)
      (failed : io.send.write = .error)
      (moved : Moved s s' [call] [(frame frameHdrSize call.response, false)]) :
      Turn io s payload (removeClient s', false)

theorem answerFrame_cases (io : FrameIo) {s : Conn} (bounded : s.Bounded) (payload : Bytes) :
    Turn io s payload (answerFrame io s payload) := by
  let response := (commandExecute io.request s.host payload msgMax).2
  let call : Call := ⟨payload, response, s.client.unsent.length⟩
  have called : Moved s (execute io.request s payload).1 [call] [] :=
    ⟨rfl, rfl, rfl, rfl, rfl, bounded, rfl, (List.append_nil _).symm, (List.append_nil _).symm⟩
  have fits : call.Fits ↔
      s.client.unsent.length + (frame frameHdrSize response).length ≤ wbufSize := by
    rw [frame_length]
    rfl
  have sent := queueWrite_cases io.send (s := (execute io.request s payload).1) bounded
    (frame frameHdrSize response)
  have eq : answerFrame io s payload =
    queueWrite io.send (execute io.request s payload).1 (frame frameHdrSize response) := rfl
  rw [eq]
  generalize queueWrite io.send (execute io.request s payload).1 (frame frameHdrSize response)
    = out at sent
  cases sent with
  | queued s' room moved => exact .answered s' call rfl (fits.mpr room) (called.trans moved)
  | full s' short moved =>
    exact .full s' call rfl (fun room => absurd (fits.mp room) (not_le.mpr short))
      (called.trans moved)
  | dropped s' room failed moved =>
    exact .dropped s' call rfl (fits.mpr room) failed (called.trans moved)

/-! What every event keeps. -/

inductive Paired : List Call → List (Bytes × Bool) → Prop
  | quiet : Paired [] []
  | answered (call : Call) (room : call.Fits) :
      Paired [call] [(frame frameHdrSize call.response, true)]
  | unanswered (call : Call) : Paired [call] [(frame frameHdrSize call.response, false)]

/-- `P` survives all that a callback is made of. -/
structure Kept (P : Conn → Prop) : Prop where
  bounded : ∀ {s}, P s → s.Bounded
  moved : ∀ {s s' calls sends}, P s → Paired calls sends → Moved s s' calls sends → P s'
  dropped : ∀ {s} size, P s → P (dropFrame size s)
  removed : ∀ {s}, P s → P (removeClient s)
  arrived : ∀ {s} bytes, P s → P (arrive bytes s)
  elsewhere : ∀ {s} h clientsCount, P s → P { s with host := h, clientsCount := clientsCount }

theorem Kept.quiet {P : Conn → Prop} (kept : Kept P) {s s' : Conn} (h : P s)
    (moved : Moved s s' [] []) : P s' :=
  kept.moved h .quiet moved

theorem Kept.answerFrame {P : Conn → Prop} (kept : Kept P) (io : FrameIo) {s : Conn} (h : P s)
    (payload : Bytes) : P (answerFrame io s payload).1 := by
  have turn := answerFrame_cases io (kept.bounded h) payload
  generalize Networking.answerFrame io s payload = out at turn ⊢
  cases turn with
  | answered s' call asked room moved => exact kept.moved h (.answered call room) moved
  | full s' call asked short moved => exact kept.moved h (.unanswered call) moved
  | dropped s' call asked room failed moved =>
    exact kept.removed (kept.moved h (.unanswered call) moved)

theorem Kept.processLoop {P : Conn → Prop} (kept : Kept P) (rounds : Nat) (ios : List FrameIo)
    {s : Conn} (h : P s) : P (Networking.processLoop rounds ios s) := by
  induction rounds generalizing ios s with
  | zero => exact h
  | succ rounds ih =>
    simp only [Networking.processLoop]
    split
    · exact h
    · split
      · exact kept.removed h
      · split
        · exact h
        · have turned := kept.answerFrame (ios.headD {}) h
            ((s.client.buf.drop frameHdrSize).take
              (BigEndian.decode (s.client.buf.take frameHdrSize)))
          generalize Networking.answerFrame _ s _ = out at turned ⊢
          obtain ⟨s', _ | _⟩ := out
          · exact turned
          · exact ih _ (kept.dropped _ turned)

theorem Kept.step {P : Conn → Prop} (kept : Kept P) {s : Conn} (h : P s) (e : Event) :
    P (Networking.step s e) := by
  cases e with
  | elsewhere host clientsCount => exact kept.elsewhere host clientsCount h
  | readable out ios =>
    simp only [Networking.step, onRead]
    split
    · split
      · exact h
      · split
        · exact h
        · exact kept.removed h
        · split
          · exact kept.removed h
          · exact kept.processLoop _ _ (kept.arrived _ h)
    · exact h
  | writable out ios =>
    simp only [Networking.step, onWrite]
    split
    · split
      · exact h
      · exact kept.removed h
      · rename_i n
        have taken := advance_moved n (kept.bounded h)
        split
        · rename_i done
          have reset := taken.trans (resetWbuf_moved done)
          exact kept.processLoop _ _
            (kept.quiet h (reset.trans (elRemoveWrite_moved reset.bounded)))
        · exact kept.quiet h taken
    · exact h

theorem Kept.run {P : Conn → Prop} (kept : Kept P) {s : Conn} (h : P s) (events : List Event) :
    P (Networking.run s events) := by
  have keep (s : Conn) (e : Event) (h : P s) : P (Networking.step s e) := kept.step h e
  exact Transition.run_invariant_always keep h events

structure Grows (s s' : Conn) : Prop where
  bounded : s'.Bounded
  received : s.received <+: s'.received
  handed : s.handed <+: s'.handed

theorem Grows.refl {s : Conn} (bounded : s.Bounded) : Grows s s :=
  ⟨bounded, List.prefix_rfl, List.prefix_rfl⟩

theorem grows_kept (s : Conn) : Kept (Grows s) where
  bounded h := h.bounded
  moved h _ m :=
    ⟨m.bounded, m.received ▸ h.received, m.handed ▸ h.handed.trans (List.prefix_append _ _)⟩
  dropped _ h := ⟨h.bounded, h.received, h.handed⟩
  removed h := ⟨Nat.le_refl 0, h.received, h.handed⟩
  arrived _ h := ⟨h.bounded, h.received.trans (List.prefix_append _ _), h.handed⟩
  elsewhere _ _ h := ⟨h.bounded, h.received, h.handed⟩

structure Gone (s : Conn) : Prop where
  inactive : s.client.active = false
  readHandler : s.readHandler = none
  writeHandler : s.writeHandler = none

theorem run_gone {s : Conn} (gone : Gone s) (events : List Event) : Gone (run s events) := by
  refine Transition.run_invariant_always (fun s e gone => ?_) gone events
  cases e with
  | readable out ios => simpa [step, gone.readHandler] using gone
  | writable out ios => simpa [step, gone.writeHandler] using gone
  | elsewhere h clientsCount => exact ⟨gone.inactive, gone.readHandler, gone.writeHandler⟩

end ByteKV.Networking
