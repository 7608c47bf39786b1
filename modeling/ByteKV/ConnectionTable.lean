import ByteKV.Connection
import ByteKV.EventLoop
import ByteKV.ServerRun

/-! The table of connections between callbacks: what each slot looks like, that the
count is right, and that a frame left waiting will be resumed by a write event. -/
namespace ByteKV.ConnectionTable
open Config ServerState Command Framing EventLoop
open Networking hiding Event step run
open ServerRun (firstHost)

/-- Nothing is unsent and nothing is waited for, or there are unsent bytes and the
write handler stands by. -/
def QueueOk (s : Conn) : Prop :=
  (s.client.wbuf = [] ∧ s.client.woff = 0 ∧ s.writeHandler = none) ∨
    (s.client.woff < s.client.wbuf.length ∧ s.writeHandler = some .onWrite)

def WholeFrame (buf : Bytes) : Prop :=
  frameHdrSize ≤ buf.length ∧ BigEndian.decode (buf.take frameHdrSize) ≤ msgMax ∧
    frameHdrSize + BigEndian.decode (buf.take frameHdrSize) ≤ buf.length

structure Working (s : Conn) : Prop where
  active : s.client.active = true
  readHandler : s.readHandler = some .onRead
  len : s.client.buf.length ≤ msgMax + frameHdrSize
  wlen : s.client.wbuf.length ≤ wbufSize
  queue : QueueOk s

structure Resting (s : Conn) : Prop extends Working s where
  resumes : WholeFrame s.client.buf → s.client.unsent ≠ []

structure Removed (s s' : Conn) : Prop where
  client : s'.client = {}
  readHandler : s'.readHandler = none
  writeHandler : s'.writeHandler = none
  clientsCount : s'.clientsCount = s.clientsCount - 1

theorem removeClient_removed (s : Conn) : Removed s (removeClient s) := ⟨rfl, rfl, rfl, rfl⟩

theorem QueueOk.unsent {s : Conn} (q : QueueOk s) (some : s.client.wbuf ≠ []) :
    s.client.unsent ≠ [] := by
  rcases q with ⟨none, -, -⟩ | ⟨lt, -⟩
  · exact absurd none some
  · intro none
    have := congrArg List.length none
    simp only [Client.unsent, List.length_drop, List.length_nil] at this
    omega

/-- What a call of `queue_write` or a turn of a frame leaves: a connection in order with
its input as it was, or none. A call that fails without an error has found bytes unsent. -/
inductive Outcome (s : Conn) : Conn × Bool → Prop
  | kept (s' : Conn) (ok : Bool) (working : Working s') (buf : s'.client.buf = s.client.buf)
      (clientsCount : s'.clientsCount = s.clientsCount)
      (full : ok = false → s'.client.unsent ≠ []) : Outcome s (s', ok)
  | lost (s' : Conn) (removed : Removed s s') : Outcome s (s', false)

theorem compact_working {s : Conn} (working : Working s) (len : Nat) :
    Working (compact len s) ∧ (compact len s).client.buf = s.client.buf ∧
      (compact len s).clientsCount = s.clientsCount ∧
      (wbufSize < (compact len s).client.wbuf.length + len → len ≤ frameHdrSize + msgMax →
        (compact len s).client.wbuf ≠ []) := by
  have nonempty (t : Conn) (short : wbufSize < t.client.wbuf.length + len)
      (small : len ≤ frameHdrSize + msgMax) : t.client.wbuf ≠ [] := by
    intro none
    rw [none] at short
    simp only [List.length_nil, wbufSize_eq, frameHdrSize_eq, msgMax_eq] at short small
    omega
  refine ⟨?_, ?_, ?_, nonempty _⟩ <;> rw [compact] <;> split
  · rename_i moves
    have wlen := working.wlen
    refine ⟨working.active, working.readHandler, working.len, ?_, ?_⟩
    · simp only [Client.unsent, List.length_drop]
      omega
    · rcases working.queue with ⟨-, zero, -⟩ | ⟨lt, handler⟩
      · omega
      · refine Or.inr ⟨?_, handler⟩
        simp only [Client.unsent, List.length_drop]
        omega
  · exact working
  all_goals rfl

theorem directWrite_outcome {s : Conn} {data : Bytes} (working : Working s)
    (empty : s.client.wbuf = []) (some : data ≠ []) (fits : data.length ≤ wbufSize) {io : SendIo}
    (registered : io.registered = true) :
    Outcome s
      (directWrite io { s with client := { s.client with wbuf := s.client.wbuf ++ data } }) := by
  obtain ⟨zero, handler⟩ : s.client.woff = 0 ∧ s.writeHandler = none := by
    rcases working.queue with ⟨-, zero, handler⟩ | ⟨lt, -⟩
    · exact ⟨zero, handler⟩
    · simp [empty] at lt
  have positive : 0 < data.length := List.length_pos_iff.mpr some
  rw [directWrite, registered]
  cases io.write with
  | error => exact .lost _ ⟨rfl, rfl, rfl, rfl⟩
  | again =>
    have waits : s.client.woff < (s.client.wbuf ++ data).length := by
      rw [zero, List.length_append]
      omega
    have wlen : (s.client.wbuf ++ data).length ≤ wbufSize := by rwa [empty, List.nil_append]
    exact .kept _ _ ⟨working.active, working.readHandler, working.len, wlen, Or.inr ⟨waits, rfl⟩⟩
      rfl rfl (by simp)
  | wrote n =>
    simp only [advance, empty, zero, List.nil_append, Client.unsent, List.drop_zero, Nat.zero_add]
    split
    · exact .kept _ _ ⟨working.active, working.readHandler, working.len, Nat.zero_le _,
        Or.inl ⟨rfl, rfl, handler⟩⟩ rfl rfl (by simp)
    · rename_i unfinished
      have less : (data.take n).length < data.length := by
        have le : (data.take n).length ≤ data.length := List.length_take_le' n data
        have ne : (data.take n).length ≠ data.length := by simpa [allSent] using unfinished
        omega
      exact .kept _ _ ⟨working.active, working.readHandler, working.len, fits, Or.inr ⟨less, rfl⟩⟩
        rfl rfl (by simp)

theorem queueWrite_outcome {s : Conn} (working : Working s) {data : Bytes} (some : data ≠ [])
    (small : data.length ≤ frameHdrSize + msgMax) {io : SendIo} (registered : io.registered = true) :
    Outcome s (queueWrite io s data) := by
  obtain ⟨packed, buf, count, nonempty⟩ := compact_working working data.length
  rw [queueWrite]
  generalize compact data.length s = t at packed buf count nonempty
  have noted {out : Conn × Bool} (h : Outcome t out) : Outcome s (noteQueued data out) := by
    cases h with
    | kept s' ok working same sameCount full =>
      obtain ⟨h1, h2, h3, h4, h5⟩ := working
      exact .kept _ _ ⟨h1, h2, h3, h4, h5⟩ (same.trans buf) (sameCount.trans count) full
    | lost s' removed =>
      obtain ⟨h1, h2, h3, h4⟩ := removed
      exact .lost _ ⟨h1, h2, h3, h4.trans (congrArg (· - 1) count)⟩
  refine noted ?_
  split
  · rename_i short
    exact .kept t false packed rfl rfl fun _ => packed.queue.unsent (nonempty short small)
  · rename_i fits
    rw [not_lt, ← List.length_append] at fits
    split
    · rename_i empty
      exact directWrite_outcome packed empty some (by rwa [empty, List.nil_append] at fits) registered
    · rename_i waiting
      -- Bytes were unsent before, so the handler stands by already.
      obtain ⟨lt, handler⟩ := packed.queue.resolve_left fun none => waiting none.1
      have longer : t.client.woff < (t.client.wbuf ++ data).length := by
        rw [List.length_append]
        omega
      rw [registered]
      exact .kept _ _ ⟨packed.active, packed.readHandler, packed.len, fits, Or.inr ⟨longer, rfl⟩⟩
        rfl rfl (by simp)

theorem answerFrame_outcome {s : Conn} (working : Working s) {io : FrameIo}
    (registered : io.send.registered = true) (payload : Bytes) :
    Outcome s (answerFrame io s payload) := by
  have small := commandExecute_length io.request s.host payload msgMax
  have called : Working (execute io.request s payload).1 :=
    ⟨working.active, working.readHandler, working.len, working.wlen, working.queue⟩
  have framed : (frame frameHdrSize (commandExecute io.request s.host payload msgMax).2) ≠ [] := by
    intro none
    have := congrArg List.length none
    simp at this
  have sent := queueWrite_outcome called framed
    (by rw [frame_length]; exact Nat.add_le_add_left small _) registered
  cases eq : queueWrite io.send (execute io.request s payload).1
    (frame frameHdrSize (commandExecute io.request s.host payload msgMax).2) with
  | mk s' ok =>
    rw [eq] at sent
    have turn : answerFrame io s payload = (s', ok) := eq
    rw [turn]
    cases sent with
    | kept _ _ working buf count full => exact .kept s' ok working buf count full
    | lost _ removed =>
      obtain ⟨h1, h2, h3, h4⟩ := removed
      exact .lost s' ⟨h1, h2, h3, h4⟩

def Leaves (s s' : Conn) : Prop :=
  (Resting s' ∧ s'.clientsCount = s.clientsCount) ∨ Removed s s'

theorem processLoop_leaves {rounds : Nat} {ios : List FrameIo} {s : Conn} (working : Working s)
    (registered : ∀ io ∈ ios, io.send.registered = true) (enough : s.client.buf.length < rounds) :
    Leaves s (processLoop rounds ios s) := by
  induction rounds generalizing ios s with
  | zero => exact absurd enough (Nat.not_lt_zero _)
  | succ rounds ih =>
    simp only [processLoop]
    split
    · rename_i header
      exact Or.inl ⟨⟨working, fun whole => absurd whole.1 (not_le.mpr header)⟩, rfl⟩
    · rename_i header
      split
      · exact Or.inr (removeClient_removed s)
      · split
        · rename_i waits
          exact Or.inl ⟨⟨working, fun whole => absurd whole.2.2 (not_le.mpr waits)⟩, rfl⟩
        · have registered_head : (ios.headD {}).send.registered = true :=
            headD_of_forall (P := fun io => io.send.registered = true) rfl registered
          have turn := answerFrame_outcome working registered_head
            ((s.client.buf.drop frameHdrSize).take
              (BigEndian.decode (s.client.buf.take frameHdrSize)))
          generalize answerFrame _ s _ = out at turn ⊢
          cases turn with
          | lost s' removed => exact Or.inr removed
          | kept s' ok after buf count full =>
            cases ok with
            | false => exact Or.inl ⟨⟨after, fun _ => full rfl⟩, count⟩
            | true =>
              generalize eq : frameHdrSize +
                BigEndian.decode (s.client.buf.take frameHdrSize) = size
              have shorter : (dropFrame size s').client.buf.length =
                  s.client.buf.length - size := by
                rw [← buf]
                exact List.length_drop
              have dropped : Working (dropFrame size s') := by
                refine ⟨after.active, after.readHandler, ?_, after.wlen, after.queue⟩
                rw [shorter]
                have := working.len
                omega
              have less : (dropFrame size s').client.buf.length < rounds := by
                rw [shorter]
                simp only [frameHdrSize_eq] at header eq
                omega
              have later := ih dropped (fun io hio => registered io (List.mem_of_mem_tail hio)) less
              have same : (dropFrame size s').clientsCount = s.clientsCount := count
              rcases later with ⟨rest, counted⟩ | removed
              · exact Or.inl ⟨rest, counted.trans same⟩
              · exact Or.inr ⟨removed.client, removed.readHandler, removed.writeHandler,
                  removed.clientsCount.trans (congrArg (· - 1) same)⟩

theorem processBuffer_leaves {ios : List FrameIo} {s : Conn} (working : Working s)
    (registered : ∀ io ∈ ios, io.send.registered = true) : Leaves s (processBuffer ios s) :=
  processLoop_leaves working registered (Nat.lt_succ_self _)

theorem Leaves.of_same {s t s' : Conn} (count : t.clientsCount = s.clientsCount)
    (leaves : Leaves t s') : Leaves s s' := by
  rcases leaves with ⟨rest, counted⟩ | removed
  · exact Or.inl ⟨rest, counted.trans count⟩
  · exact Or.inr ⟨removed.client, removed.readHandler, removed.writeHandler,
      removed.clientsCount.trans (congrArg (· - 1) count)⟩

theorem onWrite_leaves {s : Conn} (rest : Resting s) (handler : s.writeHandler = some .onWrite)
    (out : SendOutcome) {ios : List FrameIo} (registered : ∀ io ∈ ios, io.send.registered = true) :
    Leaves s (onWrite out ios s) := by
  have lt : s.client.woff < s.client.wbuf.length := by
    rcases rest.queue with ⟨-, -, none⟩ | ⟨lt, -⟩
    · simp [handler] at none
    · exact lt
  cases out with
  | again => exact Or.inl ⟨rest, rfl⟩
  | error => exact Or.inr (removeClient_removed s)
  | wrote n =>
    simp only [onWrite]
    split
    · have drained : Working (elRemoveWrite (resetWbuf (advance n s))) :=
        ⟨rest.active, rest.readHandler, rest.len, Nat.zero_le _, Or.inl ⟨rfl, rfl, rfl⟩⟩
      exact Leaves.of_same (t := elRemoveWrite (resetWbuf (advance n s))) rfl
        (processBuffer_leaves drained registered)
    · rename_i unfinished
      have le := (advance_moved n lt.le).bounded
      have ne : (advance n s).client.woff ≠ (advance n s).client.wbuf.length := by
        simpa [allSent] using unfinished
      have queue : QueueOk (advance n s) := Or.inr ⟨lt_of_le_of_ne le ne, handler⟩
      have some : (advance n s).client.wbuf ≠ [] := by
        change s.client.wbuf ≠ []
        intro none
        simp [none] at lt
      exact Or.inl ⟨⟨⟨rest.active, rest.readHandler, rest.len, rest.wlen, queue⟩,
        fun _ => queue.unsent some⟩, rfl⟩

theorem onRead_leaves {s : Conn} (rest : Resting s) (out : ReadOutcome) {ios : List FrameIo}
    (registered : ∀ io ∈ ios, io.send.registered = true) : Leaves s (onRead out ios s) := by
  have alive : ¬ s.client.active = false := by simp [rest.active]
  cases out with
  | again =>
    simp only [onRead, if_neg alive]
    exact Or.inl ⟨rest, rfl⟩
  | error =>
    simp only [onRead, if_neg alive]
    exact Or.inr (removeClient_removed s)
  | got available =>
    simp only [onRead, if_neg alive]
    split
    · exact Or.inr (removeClient_removed s)
    · generalize eq : available.take (msgMax + frameHdrSize - s.client.buf.length) = bytes
      have room : bytes.length ≤ msgMax + frameHdrSize - s.client.buf.length := by
        rw [← eq]
        exact List.length_take_le _ _
      have arrived : Working (arrive bytes s) := by
        refine ⟨rest.active, rest.readHandler, ?_, rest.wlen, rest.queue⟩
        change (s.client.buf ++ bytes).length ≤ _
        have := rest.len
        rw [List.length_append]
        omega
      exact Leaves.of_same (t := arrive bytes s) rfl (processBuffer_leaves arrived registered)

/-! The table. -/

theorem countP_update {p : Nat → Bool} {fd n : Nat} (lt : fd < n) (b : Bool) :
    (List.range n).countP (Function.update p fd b) + (p fd).toNat =
      (List.range n).countP p + b.toNat := by
  induction n with
  | zero => exact absurd lt (Nat.not_lt_zero _)
  | succ n ih =>
    rw [List.range_succ, List.countP_append, List.countP_append]
    by_cases last : fd = n
    · subst last
      have same : (List.range fd).countP (Function.update p fd b) = (List.range fd).countP p := by
        refine List.countP_congr fun i hi => ?_
        rw [Function.update_of_ne (List.mem_range.mp hi).ne]
      rw [same]
      cases b <;> cases hp : p fd <;> simp [hp]
    · have later := ih (by omega)
      have same : (List.countP (Function.update p fd b) [n]) = List.countP p [n] := by
        simp [List.countP_cons, Function.update_of_ne (Ne.symm last)]
      omega

def activeCount (net : Net) : Nat :=
  (List.range maxFds).countP fun fd => (net.slots fd).client.active

structure Consistent (net : Net) : Prop where
  count : net.clientsCount = activeCount net
  idle : ∀ fd, (net.slots fd).client.active = false → fd ≠ net.sockets.serverFd →
    fd ≠ net.sockets.pipeFd → (net.slots fd).client = {} ∧ (net.slots fd).readHandler = none ∧
      (net.slots fd).writeHandler = none
  server : net.slots net.sockets.serverFd = { readHandler := some .onAccept }
  pipe : net.slots net.sockets.pipeFd = { readHandler := some .onShutdown }
  resting : ∀ fd, (net.slots fd).client.active = true → fd < maxFds ∧ Resting (net.conn fd)

theorem initNet_consistent (h : Host) (sockets : Sockets) : Consistent (initNet h sockets) := by
  have slots (fd : Nat) : (initNet h sockets).slots fd =
      if fd = sockets.pipeFd then { readHandler := some .onShutdown }
      else if fd = sockets.serverFd then { readHandler := some .onAccept } else {} := by
    simp only [initNet, Function.update_apply]
  have inactive (fd : Nat) : ((initNet h sockets).slots fd).client.active = false := by
    rw [slots]
    split
    · rfl
    · split <;> rfl
  refine ⟨?_, fun fd _ server pipe => ?_, ?_, ?_, fun fd active => ?_⟩
  · change 0 = activeCount (initNet h sockets)
    simp [activeCount, inactive]
  · change fd ≠ sockets.serverFd at server
    change fd ≠ sockets.pipeFd at pipe
    rw [slots, if_neg pipe, if_neg server]
    exact ⟨rfl, rfl, rfl⟩
  · change (initNet h sockets).slots sockets.serverFd = _
    rw [slots, if_neg sockets.ne, if_pos rfl]
  · change (initNet h sockets).slots sockets.pipeFd = _
    rw [slots, if_pos rfl]
  · exact absurd (inactive fd) (by simp [active])

theorem activeCount_put (net : Net) {fd : Nat} (lt : fd < maxFds) (s : Conn) :
    activeCount (net.put fd s) + (net.slots fd).client.active.toNat =
      activeCount net + s.client.active.toNat := by
  rw [activeCount, activeCount, ← countP_update lt s.client.active]
  congr 2
  funext i
  simp only [Net.put, Function.update_apply]
  split <;> rfl

theorem Consistent.put {net : Net} (inv : Consistent net) {fd : Nat} {s : Conn}
    (lt : fd < maxFds) (server : fd ≠ net.sockets.serverFd) (pipe : fd ≠ net.sockets.pipeFd)
    (count : s.clientsCount + (net.slots fd).client.active.toNat =
      net.clientsCount + s.client.active.toNat)
    (left : Resting s ∨ (s.client = {} ∧ s.readHandler = none ∧ s.writeHandler = none)) :
    Consistent (net.put fd s) where
  count := by
    have counted := activeCount_put net lt s
    have before := inv.count
    change s.clientsCount = activeCount (net.put fd s)
    omega
  idle i idle iServer iPipe := by
    by_cases same : i = fd
    · subst same
      simp only [Net.put, Function.update_self] at idle ⊢
      rcases left with rest | cleared
      · exact absurd rest.active (by simp [idle])
      · exact cleared
    · simp only [Net.put, Function.update_of_ne same] at idle ⊢
      exact inv.idle i idle iServer iPipe
  server := by
    simp only [Net.put, Function.update_of_ne server.symm]
    exact inv.server
  pipe := by
    simp only [Net.put, Function.update_of_ne pipe.symm]
    exact inv.pipe
  resting i active := by
    by_cases same : i = fd
    · subst same
      simp only [Net.put, Net.conn, Function.update_self] at active ⊢
      rcases left with rest | cleared
      · exact ⟨lt, rest⟩
      · simp [cleared.1] at active
    · simp only [Net.put, Net.conn, Function.update_of_ne same] at active ⊢
      obtain ⟨lt, ⟨h1, h2, h3, h4, h5⟩, resumes⟩ := inv.resting i active
      exact ⟨lt, ⟨h1, h2, h3, h4, h5⟩, resumes⟩

theorem Consistent.put_leaves {net : Net} (inv : Consistent net) {fd : Nat} {s : Conn}
    (active : (net.slots fd).client.active = true) (leaves : Leaves (net.conn fd) s) :
    Consistent (net.put fd s) := by
  have lt := (inv.resting fd active).1
  have server : fd ≠ net.sockets.serverFd := by
    rintro rfl
    simp [inv.server] at active
  have pipe : fd ≠ net.sockets.pipeFd := by
    rintro rfl
    simp [inv.pipe] at active
  have counted : 1 ≤ net.clientsCount := by
    rw [inv.count, activeCount]
    exact List.countP_pos_iff.mpr ⟨fd, List.mem_range.mpr lt, active⟩
  rcases leaves with ⟨rest, count⟩ | removed
  · refine inv.put lt server pipe ?_ (Or.inl rest)
    rw [count, rest.active, active]
    rfl
  · refine inv.put lt server pipe ?_
      (Or.inr ⟨removed.client, removed.readHandler, removed.writeHandler⟩)
    have less := removed.clientsCount
    simp only [Net.conn] at less
    rw [removed.client, active, less]
    simp only [Bool.toNat_true, Bool.toNat_false]
    omega

theorem put_conn (net : Net) (fd : Nat) : net.put fd (net.conn fd) = net := by
  have same : Function.update net.slots fd (net.slots fd) = net.slots :=
    Function.update_eq_self fd net.slots
  simp only [Net.put, Net.conn, same]

theorem Consistent.active_of_handler {net : Net} (inv : Consistent net) {fd : Nat}
    (handler : (net.slots fd).readHandler = some .onRead ∨
      (net.slots fd).writeHandler = some .onWrite) : (net.slots fd).client.active = true := by
  by_contra inactive
  rw [Bool.not_eq_true] at inactive
  by_cases server : fd = net.sockets.serverFd
  · simp [server, inv.server] at handler
  · by_cases pipe : fd = net.sockets.pipeFd
    · simp [pipe, inv.pipe] at handler
    · obtain ⟨-, read, write⟩ := inv.idle fd inactive server pipe
      simp [read, write] at handler

theorem Consistent.remove {net : Net} (inv : Consistent net) {fd : Nat}
    (active : (net.slots fd).client.active = true) :
    Consistent (net.put fd (removeClient (net.conn fd))) :=
  inv.put_leaves active (Or.inr (removeClient_removed _))

theorem timeoutLoop_induct {I : Net → Prop}
    (remove : ∀ net fd, (net.slots fd).client.active = true → I net →
      I (net.put fd (removeClient (net.conn fd))))
    (fds : List Nat) (found : Nat) {net : Net} (start : I net) : I (timeoutLoop fds found net) := by
  induction fds generalizing net found with
  | nil => exact start
  | cons i fds ih =>
    rw [timeoutLoop]
    split
    · split
      · exact ih found start
      · rename_i active
        rw [Bool.not_eq_false] at active
        simp only
        split
        · exact ih _ (remove net i active start)
        · exact ih _ start
    · exact start

inductive Stepped (net : Net) : Event → Net → Prop
  | same (e : Event) : Stepped net e net
  | accepted (io : AcceptIo) (closed : io.accepted.any net.isOpen = false) :
      Stepped net (.accept io) (onAccept io net)
  | read (fd : Nat) (out : ReadOutcome) (ios : List FrameIo)
      (handler : (net.slots fd).readHandler = some .onRead) :
      Stepped net (.readable fd out ios) (net.put fd (onRead out ios (net.conn fd)))
  | wrote (fd : Nat) (out : SendOutcome) (ios : List FrameIo)
      (handler : (net.slots fd).writeHandler = some .onWrite) :
      Stepped net (.writable fd out ios) (net.put fd (onWrite out ios (net.conn fd)))
  | swept : Stepped net .timeouts
      (checkClientTimeouts { net with lastTimeoutCheckMs := net.host.nowMs })
  | elsewhere (h : Host) : Stepped net (.elsewhere h) { net with host := h }

theorem stepped (net : Net) (e : Event) : Stepped net e (step net e) := by
  cases e with
  | accept io =>
    simp only [step]
    split
    · exact .same _
    · split
      · exact .same _
      · rename_i closed
        exact .accepted io (Bool.not_eq_true _ ▸ closed)
  | readable fd out ios =>
    simp only [step, Networking.step]
    split
    · exact .read fd out ios ‹_›
    · rw [put_conn]
      exact .same _
  | writable fd out ios =>
    simp only [step, Networking.step]
    split
    · exact .wrote fd out ios ‹_›
    · rw [put_conn]
      exact .same _
  | timeouts =>
    simp only [step, clientTimeoutsCron]
    split
    · exact .same _
    · exact .swept
  | elsewhere h => exact .elsewhere h

theorem onAccept_cases {net : Net} {io : AcceptIo} (closed : io.accepted.any net.isOpen = false) :
    onAccept io net = net ∨ ∃ fd, fd < maxFds ∧ (net.slots fd).client.active = false ∧
      fd ≠ net.sockets.serverFd ∧ fd ≠ net.sockets.pipeFd ∧
      onAccept io net = net.put fd (acceptClient io.registered (net.conn fd)) := by
  rw [onAccept]
  cases got : io.accepted with
  | none => exact Or.inl rfl
  | some fd =>
    simp only
    split
    · exact Or.inl rfl
    · rename_i low
      split
      · exact Or.inl rfl
      · rw [got, Option.any_some] at closed
        simp only [Net.isOpen, Bool.or_eq_false_iff, decide_eq_false_iff_not] at closed
        exact Or.inr ⟨fd, not_le.mp low, closed.1.1, closed.1.2, closed.2, rfl⟩

theorem onAccept_consistent {net : Net} (inv : Consistent net) {io : AcceptIo}
    (closed : io.accepted.any net.isOpen = false) : Consistent (onAccept io net) := by
  rcases onAccept_cases closed with eq | ⟨fd, lt, inactive, server, pipe, eq⟩
  · rw [eq]
    exact inv
  · obtain ⟨client, read, write⟩ := inv.idle fd inactive server pipe
    rw [eq]
    cases io.registered with
    | true =>
      refine inv.put lt server pipe ?_ (Or.inl ⟨⟨rfl, rfl, Nat.zero_le _, Nat.zero_le _,
        Or.inl ⟨rfl, rfl, write⟩⟩, fun whole => ?_⟩)
      · rw [inactive]
        rfl
      · have header : frameHdrSize ≤ 0 := whole.1
        exact absurd header (by decide)
    | false =>
      refine inv.put lt server pipe ?_ (Or.inr ⟨rfl, read, write⟩)
      rw [inactive]
      rfl

/-- Every registration with kevent succeeds. -/
def Registers : Event → Prop
  | .readable _ _ ios => ∀ io ∈ ios, io.send.registered = true
  | .writable _ _ ios => ∀ io ∈ ios, io.send.registered = true
  | .accept _ => True
  | .timeouts => True
  | .elsewhere _ => True

theorem step_consistent {net : Net} (inv : Consistent net) {e : Event} (registers : Registers e) :
    Consistent (step net e) := by
  have rehost (inv : Consistent net) (h : Host) (lastTimeoutCheckMs : Int) :
      Consistent { net with host := h, lastTimeoutCheckMs := lastTimeoutCheckMs } :=
    ⟨inv.count, inv.idle, inv.server, inv.pipe, fun fd active => by
      obtain ⟨lt, ⟨h1, h2, h3, h4, h5⟩, resumes⟩ := inv.resting fd active
      exact ⟨lt, ⟨h1, h2, h3, h4, h5⟩, resumes⟩⟩
  have out := stepped net e
  generalize step net e = net' at out ⊢
  cases out with
  | same => exact inv
  | accepted io closed => exact onAccept_consistent inv closed
  | read fd out ios handler =>
    have active := inv.active_of_handler (Or.inl handler)
    exact inv.put_leaves active (onRead_leaves (inv.resting fd active).2 out registers)
  | wrote fd out ios handler =>
    have active := inv.active_of_handler (Or.inr handler)
    exact inv.put_leaves active (onWrite_leaves (inv.resting fd active).2 handler out registers)
  | swept => exact timeoutLoop_induct (fun _ _ active inv => inv.remove active) _ _ (rehost inv _ _)
  | elsewhere h => exact rehost inv h _

/-- The table between callbacks. The listener and the shutdown pipe have slots too, which
stay inactive, and handlers of their own. -/
structure TableOk (net : Net) : Prop where
  count : net.clientsCount =
    ((List.range maxFds).filter fun fd => (net.slots fd).client.active).length
  inactive : ∀ fd, (net.slots fd).client.active = false →
    (net.slots fd).client = {} ∧ (net.slots fd).writeHandler = none ∧
      (net.slots fd).readHandler =
        if fd = net.sockets.serverFd then some .onAccept
        else if fd = net.sockets.pipeFd then some .onShutdown else none
  sockets : (net.slots net.sockets.serverFd).client.active = false ∧
    (net.slots net.sockets.pipeFd).client.active = false
  buffers : ∀ fd, (net.slots fd).client.active = true →
    (net.slots fd).client.buf.length ≤ msgMax + frameHdrSize ∧
      (net.slots fd).client.woff ≤ (net.slots fd).client.wbuf.length ∧
      (net.slots fd).client.wbuf.length ≤ wbufSize ∧
      ((net.slots fd).client.wbuf.length = 0 ∨
        (net.slots fd).client.woff < (net.slots fd).client.wbuf.length)
  handlers : ∀ fd, (net.slots fd).client.active = true →
    fd < maxFds ∧ (net.slots fd).readHandler = some .onRead ∧
      (net.slots fd).writeHandler =
        if (net.slots fd).client.unsent = [] then none else some .onWrite
  resumes : ∀ fd, (net.slots fd).client.active = true →
    WholeFrame (net.slots fd).client.buf → (net.slots fd).client.unsent ≠ []

theorem Consistent.tableOk {net : Net} (inv : Consistent net) : TableOk net where
  count := by rw [inv.count, activeCount, List.countP_eq_length_filter]
  inactive fd idle := by
    by_cases server : fd = net.sockets.serverFd
    · subst server
      rw [inv.server, if_pos rfl]
      exact ⟨rfl, rfl, rfl⟩
    · by_cases pipe : fd = net.sockets.pipeFd
      · subst pipe
        rw [inv.pipe, if_neg server, if_pos rfl]
        exact ⟨rfl, rfl, rfl⟩
      · obtain ⟨client, read, write⟩ := inv.idle fd idle server pipe
        rw [if_neg server, if_neg pipe]
        exact ⟨client, write, read⟩
  sockets := by
    rw [inv.server, inv.pipe]
    exact ⟨rfl, rfl⟩
  buffers fd active := by
    have rest := (inv.resting fd active).2
    refine ⟨rest.len, ?_, rest.wlen, ?_⟩
    · rcases rest.queue with ⟨-, zero, -⟩ | ⟨lt, -⟩
      · exact zero.trans_le (Nat.zero_le _)
      · exact lt.le
    · exact rest.queue.imp (fun none => congrArg List.length none.1) And.left
  handlers fd active := by
    obtain ⟨lt, rest⟩ := inv.resting fd active
    refine ⟨lt, rest.readHandler, ?_⟩
    rcases rest.queue with ⟨empty, -, none⟩ | ⟨some, handler⟩
    · have nothing : (net.slots fd).client.unsent = [] := by
        rw [Client.unsent, show (net.slots fd).client.wbuf = [] from empty, List.drop_nil]
      rw [if_pos nothing]
      exact none
    · have bytes : (net.slots fd).client.wbuf ≠ [] := fun empty => by
        have lt : (net.slots fd).client.woff < (net.slots fd).client.wbuf.length := some
        simp [empty] at lt
      have unsent : (net.slots fd).client.unsent ≠ [] := rest.queue.unsent bytes
      rw [if_neg unsent]
      exact handler
  resumes fd active := (inv.resting fd active).2.resumes

theorem run_tableOk (h : Host) (sockets : Sockets) (events : List Event)
    (registers : ∀ e ∈ events, Registers e) : TableOk (run (initNet h sockets) events) := by
  suffices kept : ∀ net, Consistent net → Consistent (run net events) from
    (kept _ (initNet_consistent h sockets)).tableOk
  induction events with
  | nil => exact fun net inv => inv
  | cons e events ih =>
    intro net inv
    exact ih (fun f hf => registers f (List.mem_cons_of_mem _ hf)) _
      (step_consistent inv (registers e List.mem_cons_self))

def slowStart : List Event :=
  [.accept { accepted := some 5 },
    .readable 5 (.got (frame frameHdrSize (ascii "GET k") ++ [0, 0])) [{ send := { write := .again } }],
    .writable 5 (.wrote 2) []]

theorem run_tableOk_slowStart :
    TableOk (run (initNet (firstHost {}) ⟨3, 4, by decide⟩) slowStart) ∧
      ((run (initNet (firstHost {}) ⟨3, 4, by decide⟩) slowStart).slots 5).client.buf = [0, 0] ∧
      ((run (initNet (firstHost {}) ⟨3, 4, by decide⟩) slowStart).slots 5).writeHandler =
        some .onWrite := by
  refine ⟨run_tableOk _ _ slowStart ?_, by decide +kernel, by decide +kernel⟩
  simp only [slowStart, List.forall_mem_cons]
  refine ⟨trivial, fun io hio => ?_, fun io hio => absurd hio List.not_mem_nil, ?_⟩
  · obtain rfl := List.mem_singleton.mp hio
    rfl
  · exact fun e he => absurd he List.not_mem_nil

theorem listener_reads :
    ¬ ∀ fd, ((run (initNet (firstHost {}) ⟨3, 4, by decide⟩) []).slots fd).client.active = false →
      ((run (initNet (firstHost {}) ⟨3, 4, by decide⟩) []).slots fd).readHandler = none ∧
        ((run (initNet (firstHost {}) ⟨3, 4, by decide⟩) []).slots fd).writeHandler = none := by
  intro h
  have idle := (h 3 (by decide)).1
  exact absurd idle (by decide)

end ByteKV.ConnectionTable
