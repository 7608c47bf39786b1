import ByteKV.ConnectionTable
import ByteKV.Lockstep
import ByteKV.Progress

/-! The client gets its answer. If nothing fails, and bytes under way are delivered in the end, at
most a number of rounds that the sizes of the two frames give lies between a command and the
end of its response. -/
namespace ByteKV.Responsiveness
open Config ServerState Command Framing Accounting PythonClient Lockstep
open Networking hiding Event step run Turn
open Delivery (answers Settled step_settled)
open FramedInput (Aligned Partial)
open ConnectionTable (Resting Removed Leaves onRead_leaves onWrite_leaves)
open Progress (Justice)
open ServerRun (firstHost)

def Registered : Event → Prop
  | .readable _ ios | .writable _ ios => ∀ io ∈ ios, io.send.registered = true
  | _ => True

/-- No call fails, and neither side gives up. -/
def Calm : Event → Prop
  | .quit | .readFails | .timedOut => False
  | .readable _ ios => ∀ io ∈ ios, io.send.write ≠ .error ∧ io.send.registered = true
  | .writable out ios =>
      out ≠ .error ∧ ∀ io ∈ ios, io.send.write ≠ .error ∧ io.send.registered = true
  | _ => True

inductive Mover
  | push
  | read
  | write
  | recv

def HasTurn : Mover → Event → Prop
  | .push, .push n | .read, .readable n _ | .write, .writable (.wrote n) _ | .recv, .recv n => 0 < n
  | _, _ => False

def Useful : Mover → Joint → Prop
  | .push, j => j.session.phase.unsent ≠ []
  | .read, j => toServer j ≠ []
  | .write, j => j.conn.client.unsent ≠ []
  | .recv, j => toClient j ≠ [] ∧ 0 < wanted j.session.phase

/-- Each mover has a turn in the round. -/
def Fair (round : List Event) : Prop := ∀ mover, ∃ e ∈ round, HasTurn mover e

def moved (j : Joint) : Nat :=
  j.session.sent.length + j.conn.received.length + j.conn.sent.length + j.session.got.length

/-! Nothing is taken back. -/

structure Further (j j' : Joint) : Prop where
  sent : j.session.sent <+: j'.session.sent
  received : j.conn.received <+: j'.conn.received
  handed : j.conn.handed <+: j'.conn.handed
  out : j.conn.sent <+: j'.conn.sent
  got : j.session.got <+: j'.session.got

theorem Further.refl (j : Joint) : Further j j :=
  ⟨List.prefix_rfl, List.prefix_rfl, List.prefix_rfl, List.prefix_rfl, List.prefix_rfl⟩

theorem Further.trans {j j' j'' : Joint} (a : Further j j') (b : Further j' j'') : Further j j'' :=
  ⟨a.sent.trans b.sent, a.received.trans b.received, a.handed.trans b.handed, a.out.trans b.out,
    a.got.trans b.got⟩

theorem conn_sent {s : Conn} (e : Networking.Event) : s.sent <+: (Networking.step s e).sent := by
  cases e with
  | readable out ios =>
    simp only [Networking.step]
    split
    · obtain ⟨calls, ran⟩ := onRead_ran out ios s
      exact ran.sent
    · exact List.prefix_rfl
  | writable out ios =>
    simp only [Networking.step]
    split
    · obtain ⟨calls, ran⟩ := onWrite_ran out ios s
      exact ran.sent
    · exact List.prefix_rfl
  | elsewhere h clientsCount => exact List.prefix_rfl

theorem conn_further {j : Joint} (bounded : j.conn.Bounded) (e : Networking.Event) :
    Further j { j with conn := Networking.step j.conn e } := by
  obtain ⟨-, received, handed⟩ := (grows_kept j.conn).step (.refl bounded) e
  exact ⟨List.prefix_rfl, received, handed, conn_sent e, List.prefix_rfl⟩

theorem session_further {j : Joint} {s : Session} (sent : j.session.sent <+: s.sent)
    (got : j.session.got <+: s.got) : Further j { j with session := s } :=
  ⟨sent, List.prefix_rfl, List.prefix_rfl, List.prefix_rfl, got⟩

theorem recv_further (n : Nat) (j : Joint) : Further j { j with session := recv n j } := by
  unfold Lockstep.recv
  simp only
  split
  · obtain ⟨-, sent, got⟩ := receive_histories
      ((toClient j).take (min n (wanted j.session.phase))) j.session
    refine session_further (sent ▸ List.prefix_rfl) ?_
    rcases got with same | more
    · exact same ▸ List.prefix_rfl
    · exact more ▸ List.prefix_append _ _
  · split <;> exact session_further List.prefix_rfl List.prefix_rfl

theorem step_further {j : Joint} (bounded : j.conn.Bounded) (e : Event) : Further j (step j e) := by
  cases e with
  | enter cmd =>
    refine session_further ?_ ?_ <;> unfold PythonClient.enter <;> split
    · exact List.prefix_rfl
    · split <;> exact List.prefix_rfl
    · exact List.prefix_rfl
    · split <;> exact List.prefix_rfl
  | push n =>
    refine session_further ?_ ?_ <;> unfold PythonClient.push <;> split
    · exact List.prefix_append _ _
    · exact List.prefix_rfl
    · exact List.prefix_rfl
    · exact List.prefix_rfl
  | recv n => exact recv_further n j
  | quit => exact session_further List.prefix_rfl List.prefix_rfl
  | readable n ios => exact conn_further bounded _
  | readFails => exact conn_further bounded _
  | writable out ios => exact conn_further bounded _
  | timedOut =>
    simp only [step]
    split <;>
      exact ⟨List.prefix_rfl, List.prefix_rfl, List.prefix_rfl, List.prefix_rfl, List.prefix_rfl⟩
  | elsewhere h clientsCount => exact conn_further bounded (.elsewhere h clientsCount)

/-! The connection stays in order. -/

structure Orderly (j : Joint) : Prop extends Locked j where
  resting : j.conn.client.active = true → Resting j.conn

theorem Orderly.leaves {j : Joint} (inv : Orderly j) (active : j.conn.client.active = true)
    {s : Conn}
    (leaves : Resting j.conn → Leaves j.conn s) (alive : s.client.active = true) : Resting s := by
  rcases leaves (inv.resting active) with ⟨rest, -⟩ | removed
  · exact rest
  · rw [removed.client] at alive
    cases alive

theorem Orderly.active {j : Joint} (inv : Orderly j) (handler : j.conn.readHandler ≠ none ∨
    j.conn.writeHandler ≠ none) : j.conn.client.active = true := by
  by_contra dead
  have gone := inv.served.gone (by simpa using dead)
  exact handler.elim (absurd gone.readHandler) (absurd gone.writeHandler)

theorem Orderly.readable {j : Joint} (inv : Orderly j) {out : ReadOutcome} {ios : List FrameIo}
    (registered : ∀ io ∈ ios, io.send.registered = true)
    (alive : (Networking.step j.conn (.readable out ios)).client.active = true) :
    Resting (Networking.step j.conn (.readable out ios)) := by
  simp only [Networking.step] at alive ⊢
  split
  · rename_i handler
    rw [if_pos handler] at alive
    exact inv.leaves (inv.active (Or.inl (by simp [handler])))
      (fun rest => onRead_leaves rest out registered) alive
  · rename_i handler
    rw [if_neg handler] at alive
    exact inv.resting alive

theorem Orderly.writable {j : Joint} (inv : Orderly j) {out : SendOutcome} {ios : List FrameIo}
    (registered : ∀ io ∈ ios, io.send.registered = true)
    (alive : (Networking.step j.conn (.writable out ios)).client.active = true) :
    Resting (Networking.step j.conn (.writable out ios)) := by
  simp only [Networking.step] at alive ⊢
  split
  · rename_i handler
    rw [if_pos handler] at alive
    exact inv.leaves (inv.active (Or.inr (by simp [handler])))
      (fun rest => onWrite_leaves rest handler out registered) alive
  · rename_i handler
    rw [if_neg handler] at alive
    exact inv.resting alive

theorem step_orderly {j : Joint} (inv : Orderly j) {e : Event} (registered : Registered e) :
    Orderly (step j e) := by
  refine ⟨step_locked inv.toLocked e, fun alive => ?_⟩
  cases e with
  | enter cmd => exact inv.resting alive
  | push n => exact inv.resting alive
  | recv n => exact inv.resting alive
  | quit => exact inv.resting alive
  | readable n ios => exact inv.readable registered alive
  | readFails => exact inv.readable nofun alive
  | writable out ios => exact inv.writable registered alive
  | timedOut =>
    simp only [step] at alive ⊢
    split
    · rename_i active
      rw [if_pos active] at alive
      cases alive
    · rename_i dead
      rw [if_neg dead] at alive
      exact absurd alive dead
  | elsewhere h clientsCount =>
    obtain ⟨⟨active, readHandler, len, wlen, queue⟩, resumes⟩ := inv.resting alive
    exact ⟨⟨active, readHandler, len, wlen, queue⟩, resumes⟩

theorem start_orderly (h : Host) (clientsCount : Nat) : Orderly (start h clientsCount) := by
  refine ⟨start_locked h clientsCount, fun _ => ⟨⟨rfl, rfl, Nat.zero_le _, Nat.zero_le _,
    Or.inl ⟨rfl, rfl, rfl⟩⟩, fun whole => ?_⟩⟩
  have header : frameHdrSize ≤ 0 := whole.1
  exact absurd header (by decide)

/-! While the client waits. -/

structure Waiting (cmds responses : List Bytes) (j : Joint) : Prop extends Orderly j where
  typed : j.session.typed = cmds
  printed : j.session.printed = responses
  waits : j.session.phase.waits = true
  settled : Settled cmds j.conn

structure Heard (cmds responses : List Bytes) (j : Joint) : Prop extends Orderly j where
  typed : j.session.typed = cmds
  whole : ∃ response s, s.printed = responses ∧ Whole response s j.session
  settled : Settled cmds j.conn

theorem settled_active {ps : List Bytes} {s : Conn} (settled : Settled ps s) :
    s.client.active = true := by
  obtain ⟨done, rest, -, inv, -⟩ := settled
  exact inv.active

theorem enter_waits {s : Session} (waits : s.phase.waits = true) (cmd : Bytes) :
    enter cmd s = s := by
  unfold PythonClient.enter
  rw [if_pos (Or.inl _)]
  rintro prompt
  rw [prompt] at waits
  cases waits

theorem push_waits {s : Session} (waits : s.phase.waits = true) (n : Nat) :
    (push n s).typed = s.typed ∧ (push n s).printed = s.printed ∧ (push n s).phase.waits = true := by
  unfold PythonClient.push
  split
  · refine ⟨rfl, rfl, ?_⟩
    simp only
    split <;> rfl
  · exact ⟨rfl, rfl, waits⟩

section Waiting
variable {cmds responses : List Bytes} {j : Joint} (inv : Waiting cmds responses j)
include inv

theorem Waiting.active : j.conn.client.active = true := settled_active inv.settled

theorem Waiting.connSettled (legal : ∀ p ∈ cmds, p.length ≤ msgMax) {e : Networking.Event}
    (calm : FramedInput.Calm e) (next : Locked { j with conn := Networking.step j.conn e }) :
    Settled cmds (Networking.step j.conn e) := by
  have front := next.served.behind.trans next.session.behind
  rw [inv.typed] at front
  exact step_settled legal inv.settled calm front fun call member =>
    fits_of_alone (next.served.alone call member) (next.served.made call member).short

theorem Waiting.ask {s : Session} (next : Orderly { j with session := s })
    (typed : s.typed = j.session.typed)
    (goes : (∃ response, Whole response j.session s) ∨
      (s.phase.waits = true ∧ s.printed = j.session.printed)) :
    Heard cmds responses { j with session := s } ∨ Waiting cmds responses { j with session := s } := by
  rcases goes with ⟨response, whole⟩ | ⟨waits, printed⟩
  · exact Or.inl ⟨next, typed.trans inv.typed, ⟨response, _, inv.printed, whole⟩, inv.settled⟩
  · exact Or.inr ⟨next, typed.trans inv.typed, printed.trans inv.printed, waits, inv.settled⟩

theorem Waiting.serve (legal : ∀ p ∈ cmds, p.length ≤ msgMax) {e : Networking.Event}
    (calm : FramedInput.Calm e) (next : Orderly { j with conn := Networking.step j.conn e }) :
    Waiting cmds responses { j with conn := Networking.step j.conn e } :=
  ⟨next, inv.typed, inv.printed, inv.waits, inv.connSettled legal calm next.toLocked⟩

theorem Waiting.arriving (n : Nat) :
    ((toServer j).take n ≠ [] ∧ arriving n j = .got ((toServer j).take n)) ∨
      ((toServer j).take n = [] ∧ arriving n j = .again) := by
  unfold Lockstep.arriving
  split
  · rename_i some
    exact Or.inl ⟨some, rfl⟩
  · rename_i none
    rw [not_not] at none
    refine Or.inr ⟨none, if_neg fun closed => ?_⟩
    have waits := inv.waits
    rw [closed.1] at waits
    cases waits

theorem Waiting.recv (n : Nat) (chunk : Bytes)
    (eq : (toClient j).take (min n (wanted j.session.phase)) = chunk) :
    Lockstep.recv n j = if chunk ≠ [] then receive chunk j.session else j.session := by
  unfold Lockstep.recv
  simp only [eq]
  congr 1
  rw [if_neg fun closed => ?_]
  have active := inv.active
  rw [closed.2.2] at active
  cases active

end Waiting

theorem step_waiting {cmds responses : List Bytes} (legal : ∀ p ∈ cmds, p.length ≤ msgMax)
    {j : Joint} (inv : Waiting cmds responses j) {e : Event} (calm : Calm e) :
    Heard cmds responses (step j e) ∨ Waiting cmds responses (step j e) := by
  have orderly (registered : Registered e) := step_orderly inv.toOrderly registered
  cases e with
  | enter cmd =>
    refine inv.ask (orderly trivial) ?_ ?_ <;> rw [enter_waits inv.waits]
    exact Or.inr ⟨inv.waits, rfl⟩
  | push n =>
    obtain ⟨typed, printed, waits⟩ := push_waits inv.waits n
    exact inv.ask (orderly trivial) typed (Or.inr ⟨waits, printed⟩)
  | recv n =>
    have eq := inv.recv n _ rfl
    refine inv.ask (orderly trivial) ?_ ?_ <;> rw [eq] <;> split
    · exact (receive_histories _ _).1
    · rfl
    · exact inv.session.receive_waits inv.waits
        ((List.length_take_le _ _).trans (Nat.min_le_right _ _))
    · exact Or.inr ⟨inv.waits, rfl⟩
  | readable n ios =>
    refine Or.inr (inv.serve legal ?_ (orderly fun io member => (calm io member).2))
    have sound : ∀ io ∈ ios, io.send.write ≠ .error := fun io member => (calm io member).1
    rcases inv.arriving n with ⟨some, eq⟩ | ⟨-, eq⟩ <;> rw [eq]
    · exact ⟨nofun, fun none => some (ReadOutcome.got.inj none), sound⟩
    · exact ⟨nofun, nofun, sound⟩
  | writable out ios =>
    obtain ⟨sound, calm⟩ := calm
    exact Or.inr (inv.serve legal ⟨sound, fun io member => (calm io member).1⟩
      (orderly fun io member => (calm io member).2))
  | elsewhere h clientsCount =>
    exact Or.inr (inv.serve (e := .elsewhere h clientsCount) legal trivial (orderly trivial))
  | quit => exact calm.elim
  | readFails => exact calm.elim
  | timedOut => exact calm.elim

/-! What moves bytes. -/

structure Same (j j' : Joint) : Prop where
  session : j'.session = j.session
  toServer : toServer j' = toServer j
  unsent : j'.conn.client.unsent = j.conn.client.unsent
  toClient : toClient j' = toClient j
  moved : moved j = moved j'

theorem Same.refl (j : Joint) : Same j j := ⟨rfl, rfl, rfl, rfl, rfl⟩

theorem Same.useful {j j' : Joint} (same : Same j j') {mover : Mover} (useful : Useful mover j) :
    Useful mover j' := by
  obtain ⟨session, toServer, unsent, toClient, -⟩ := same
  cases mover with
  | push =>
    rw [Useful, session]
    exact useful
  | read => exact toServer.trans_ne useful
  | write => exact unsent.trans_ne useful
  | recv =>
    rw [Useful, session]
    exact ⟨toClient.trans_ne useful.1, useful.2⟩

/-- An event moves bytes, or it is the turn of no mover that has any. -/
def Moves (j : Joint) (e : Event) : Prop :=
  moved j < moved (step j e) ∨
    (Same j (step j e) ∧ ∀ mover, Useful mover j → ¬ HasTurn mover e)

theorem Further.moved_lt {j j' : Joint} (further : Further j j')
    (more : j.session.sent.length < j'.session.sent.length ∨
      j.conn.received.length < j'.conn.received.length ∨
      j.conn.sent.length < j'.conn.sent.length ∨ j.session.got.length < j'.session.got.length) :
    moved j < moved j' := by
  have sent := further.sent.length_le
  have received := further.received.length_le
  have out := further.out.length_le
  have got := further.got.length_le
  rw [moved, moved]
  omega

theorem length_lt_append {a b c : Bytes} (some : b ≠ []) (front : a ++ b <+: c) :
    a.length < c.length := by
  have len := front.length_le
  have pos := List.length_pos_iff.mpr some
  rw [List.length_append] at len
  omega

section Moves
variable {cmds responses : List Bytes} {j : Joint} (inv : Waiting cmds responses j)
include inv

theorem Waiting.push_moves (n : Nat) : Moves j (.push n) := by
  have further := step_further inv.served.bounded (.push n)
  have unfinished := inv.session.unfinished
  cases phase : j.session.phase with
  | sending rest =>
    rw [phase] at unfinished
    by_cases none : rest.take n = []
    · have zero : n = 0 := (List.take_eq_nil_iff.mp none).resolve_right unfinished
      subst zero
      have same : step j (.push 0) = j := by
        have session : push 0 j.session = j.session := by
          have eq : push 0 j.session = { j.session with phase := .sending rest } := by
            simp [PythonClient.push, phase, show rest ≠ [] from unfinished]
          rw [eq, ← phase]
        rw [step, session]
      refine Or.inr ⟨same.symm ▸ .refl j, fun mover _ turn => ?_⟩
      cases mover with
      | push => exact absurd turn (Nat.lt_irrefl 0)
      | read | write | recv => exact turn
    · refine Or.inl (further.moved_lt (Or.inl ?_))
      have sent : (step j (.push n)).session.sent = j.session.sent ++ rest.take n := by
        simp [step, PythonClient.push, phase]
      exact length_lt_append none (sent ▸ List.prefix_rfl)
  | prompt | header data | body length data | closed =>
    have same : step j (.push n) = j := by simp [step, PythonClient.push, phase]
    refine Or.inr ⟨same.symm ▸ .refl j, fun mover useful turn => ?_⟩
    cases mover with
    | push => exact useful (by rw [phase]; rfl)
    | read | write | recv => exact turn

theorem Waiting.recv_moves (n : Nat) : Moves j (.recv n) := by
  have further := step_further inv.served.bounded (.recv n)
  generalize eq : (toClient j).take (min n (wanted j.session.phase)) = chunk
  have recv := inv.recv n chunk eq
  by_cases none : chunk = []
  · rw [if_neg (not_not.mpr none)] at recv
    have same : step j (.recv n) = j := by rw [step, recv]
    refine Or.inr ⟨same.symm ▸ .refl j, fun mover useful turn => ?_⟩
    cases mover with
    | recv =>
      obtain ⟨some, wants⟩ := useful
      have zero := (List.take_eq_nil_iff.mp (eq.trans none)).resolve_right some
      have pos : 0 < n := turn
      omega
    | push | read | write => exact turn
  · rw [if_pos none] at recv
    refine Or.inl (further.moved_lt (Or.inr (Or.inr (Or.inr ?_))))
    have got : (step j (.recv n)).session.got = j.session.got ++ chunk := by
      simp only [step]
      rw [recv]
      cases phase : j.session.phase with
      | header data =>
        simp only [receive, phase]
        split
        · rfl
        · exact (collect_histories _ _ _).2.2
      | body length data =>
        simp only [receive, phase]
        exact (collect_histories _ _ _).2.2
      | prompt | sending rest | closed =>
        rw [phase] at eq
        simp only [wanted, Nat.min_zero, List.take_zero] at eq
        exact absurd eq.symm none
    exact length_lt_append none (got ▸ List.prefix_rfl)

theorem Waiting.read_moves (legal : ∀ p ∈ cmds, p.length ≤ msgMax) (n : Nat) (ios : List FrameIo) :
    Moves j (.readable n ios) := by
  have further := step_further inv.served.bounded (.readable n ios)
  have handler := (inv.resting inv.active).readHandler
  have alive : ¬ j.conn.client.active = false := by simp [inv.active]
  rcases inv.arriving n with ⟨some, eq⟩ | ⟨none, eq⟩
  · refine Or.inl (further.moved_lt (Or.inr (Or.inl ?_)))
    obtain ⟨done, rest, cut, aligned, waits⟩ := inv.settled
    have room := aligned.buf_length (fun p hp => legal p (cut ▸ List.mem_append_right _ hp)) waits
    generalize bytesEq : ((toServer j).take n).take
      (msgMax + frameHdrSize - j.conn.client.buf.length) = bytes
    have more : bytes ≠ [] := by
      rw [← bytesEq, Ne, List.take_eq_nil_iff]
      rintro (full | none)
      · omega
      · exact some none
    have bounded : (arrive bytes j.conn).Bounded := inv.served.bounded
    have received := ((grows_kept (arrive bytes j.conn)).processLoop
      ((arrive bytes j.conn).client.buf.length + 1) ios (.refl bounded)).received
    refine length_lt_append more ?_
    simp only [step, Networking.step, if_pos handler, eq, onRead, if_neg alive, bytesEq,
      if_neg more]
    exact received
  · have same : step j (.readable n ios) = j := by
      simp only [step, Networking.step, if_pos handler, eq, onRead, if_neg alive]
    refine Or.inr ⟨same.symm ▸ .refl j, fun mover useful turn => ?_⟩
    cases mover with
    | read =>
      have zero := (List.take_eq_nil_iff.mp none).resolve_right useful
      exact absurd zero (Nat.ne_of_gt turn)
    | push | write | recv => exact turn

theorem Waiting.write_moves {out : SendOutcome} (sound : out ≠ .error) (ios : List FrameIo) :
    Moves j (.writable out ios) := by
  have further := step_further inv.served.bounded (.writable out ios)
  have idle (same : step j (.writable out ios) = j)
      (none : ∀ n, out = .wrote n → j.conn.client.unsent.take n = []) :
      Moves j (.writable out ios) := by
    refine Or.inr ⟨same.symm ▸ .refl j, fun mover useful turn => ?_⟩
    cases mover with
    | write =>
      cases out with
      | wrote n =>
        have zero := (List.take_eq_nil_iff.mp (none n rfl)).resolve_right useful
        exact absurd zero (Nat.ne_of_gt turn)
      | again | error => exact turn
    | push | read | recv => exact turn
  rcases (inv.resting inv.active).queue with ⟨empty, -, handler⟩ | ⟨lt, handler⟩
  · refine idle ?_ fun n _ => ?_
    · simp [step, Networking.step, handler]
    · simp [Client.unsent, empty]
  · have unfinished : allSent j.conn = false := by simpa [allSent] using lt.ne
    cases out with
    | error => exact absurd rfl sound
    | again =>
      refine idle (by simp [step, Networking.step, handler, onWrite]) fun n wrote => ?_
      cases wrote
    | wrote n =>
      by_cases none : j.conn.client.unsent.take n = []
      · have taken : advance n j.conn = j.conn := by simp [advance, none]
        refine idle ?_ fun m eq => SendOutcome.wrote.inj eq ▸ none
        simp [step, Networking.step, handler, onWrite, taken, unfinished]
      · refine Or.inl (further.moved_lt (Or.inr (Or.inr (Or.inl (length_lt_append none ?_)))))
        simp only [step, Networking.step, if_pos handler, onWrite]
        split
        · obtain ⟨calls, ran⟩ :=
            processLoop_ran _ ios (elRemoveWrite (resetWbuf (advance n j.conn)))
          exact ran.sent
        · exact List.prefix_rfl

theorem Waiting.opened : j.session.phase ≠ .closed := by
  intro closed
  have waits := inv.waits
  rw [closed] at waits
  cases waits

theorem Waiting.executed (unsent : j.session.phase.unsent = []) (none : toServer j = []) :
    j.conn.handed.map Call.payload = cmds := by
  have sent : j.session.sent = stream 4 cmds := by
    have wire := inv.session.wire inv.opened
    rwa [unsent, List.append_nil, inv.typed] at wire
  have received : j.conn.received = stream 4 cmds :=
    (inv.served.behind.eq_of_length_le (List.drop_eq_nil_iff.mp none)).trans sent
  obtain ⟨done, rest, cut, aligned, waits⟩ := inv.settled
  have whole : j.conn.client.buf = stream 4 rest := by
    have all : stream 4 done ++ j.conn.client.buf = stream 4 done ++ stream 4 rest := by
      rw [← stream_append, ← cut, ← received]
      exact aligned.received.symm
    exact List.append_cancel_left all
  have none_left : rest = [] := by
    rcases rest with _ | ⟨p, rest⟩
    · rfl
    · have short := waits p rfl
      rw [whole, stream_cons, List.length_append, frame_length, frameHdrSize_eq] at short
      omega
  refine (stream_part (fun p member => ?_) (inv.typed ▸ inv.session.legal) (by decide)
    (.header [] (by decide)) ?_).1
  · exact inv.session.legal p (inv.served.executed.subset member)
  · rw [← received, inv.served.input inv.active, whole, none_left]
    rfl

theorem Waiting.wants (unsent : j.session.phase.unsent = []) : 0 < wanted j.session.phase := by
  have unfinished := inv.session.unfinished
  have waits := inv.waits
  cases phase : j.session.phase with
  | header data =>
    rw [phase] at unfinished
    exact Nat.sub_pos_of_lt unfinished
  | body length data =>
    rw [phase] at unfinished
    exact Nat.sub_pos_of_lt unfinished.2
  | sending rest =>
    rw [phase] at unsent unfinished
    exact absurd unsent unfinished
  | prompt | closed =>
    rw [phase] at waits
    cases waits

/-- Bytes are somewhere, if the response has not been printed. -/
theorem Waiting.useful : ∃ mover, Useful mover j := by
  by_contra none
  rw [not_exists] at none
  have unsent : j.session.phase.unsent = [] := not_not.mp (none .push)
  have wbuf : j.conn.client.unsent = [] := not_not.mp (none .write)
  have executed := inv.executed unsent (not_not.mp (none .read))
  have out : j.conn.sent = stream 4 (j.conn.handed.map Call.response) := by
    have output := inv.served.output inv.active
    rwa [Conn.output, wbuf, List.append_nil, answers_stream] at output
  have got : j.session.got = j.conn.sent := by
    have toClient : toClient j = [] := by_contra fun some => none .recv ⟨some, inv.wants unsent⟩
    exact inv.got.eq_of_length_le (List.drop_eq_nil_iff.mp toClient)
  -- All the responses have been read, so they have been printed, and there are too many.
  have printed : j.session.printed = j.conn.handed.map Call.response := by
    refine (stream_part inv.session.responses inv.served.legal (by decide)
      inv.session.unfinished.part ?_).1
    rw [← inv.session.heard inv.opened, got, out]
  have busy := inv.session.busy inv.waits
  have responses := congrArg List.length printed
  have payloads := congrArg List.length executed
  rw [List.length_map] at responses payloads
  rw [inv.typed] at busy
  omega

theorem Waiting.moved_le : moved j ≤ 2 * (stream 4 cmds).length +
    2 * ((stream 4 responses).length + (4 + msgMax)) := by
  have sent := inv.session.behind.length_le
  have received := inv.served.behind.length_le
  have got := inv.got.length_le
  have out := inv.served.sent.length_le
  have busy := inv.session.busy inv.waits
  have calls := inv.served.executed.length_le
  obtain ⟨more, eq⟩ := inv.toLocked.printed
  have responses : (answers j.conn.handed).length ≤ (stream 4 responses).length + (4 + msgMax) := by
    have count := congrArg List.length eq
    rw [List.length_append, List.length_map] at count
    rw [List.length_map] at calls
    rw [answers_stream, ← eq, stream_append, List.length_append, inv.printed]
    refine Nat.add_le_add_left ?_ _
    rcases more with _ | ⟨r, more⟩
    · exact Nat.zero_le _
    · obtain rfl : more = [] := List.length_eq_zero_iff.mp (by
        rw [List.length_cons] at count
        omega)
      have member : r ∈ j.conn.handed.map Call.response := by simp [← eq]
      obtain ⟨call, there, rfl⟩ := List.mem_map.mp member
      have short := (inv.served.made call there).short
      rw [stream_cons, stream_nil, List.append_nil, frame_length]
      exact Nat.add_le_add_left short 4
  rw [inv.typed] at sent
  rw [moved]
  omega

end Moves

theorem waiting_justice {cmds responses : List Bytes} (legal : ∀ p ∈ cmds, p.length ≤ msgMax) :
    Justice step (Waiting cmds responses) (Heard cmds responses) Calm Useful HasTurn moved where
  useful _ live := live.useful
  step j e live calm := by
    refine (step_waiting legal live calm).imp_right fun next => ⟨next, ?_⟩
    have moves : Moves j e := by
      cases e with
      | enter cmd =>
        have same : step j (.enter cmd) = j := by rw [step, enter_waits live.waits]
        exact Or.inr ⟨same.symm ▸ .refl j, fun mover _ turn => by cases mover <;> exact turn⟩
      | push n => exact live.push_moves n
      | recv n => exact live.recv_moves n
      | readable n ios => exact live.read_moves legal n ios
      | writable out ios => exact live.write_moves calm.1 ios
      | elsewhere h clientsCount =>
        exact Or.inr ⟨⟨rfl, rfl, rfl, rfl, rfl⟩, fun mover _ turn => by cases mover <;> exact turn⟩
      | quit | readFails | timedOut => exact calm.elim
    refine moves.imp_right fun still => ⟨still.1.moved, fun mover useful => ?_⟩
    refine ⟨still.1.useful useful, fun f only => ?_⟩
    exact List.mem_singleton.mp only ▸ still.2 mover useful

/-! From the prompt to the prompt. -/

structure Idle (j : Joint) : Prop where
  sent : j.session.sent = stream 4 j.session.typed
  received : j.conn.received = stream 4 j.session.typed
  buf : j.conn.client.buf = []
  out : j.conn.sent = stream 4 j.session.printed
  got : j.session.got = stream 4 j.session.printed

theorem prompt_idle {j : Joint} (inv : Locked j) (prompt : j.session.phase = .prompt)
    (active : j.conn.client.active = true) : Idle j := by
  obtain ⟨executed, answered⟩ := inv.prompt prompt
  have opened : j.session.phase ≠ .closed := by simp [prompt]
  have sent : j.session.sent = stream 4 j.session.typed := by
    have wire := inv.session.wire opened
    rw [prompt] at wire
    exact (List.append_nil _).symm.trans wire
  have input := inv.served.input active
  rw [executed] at input
  have buf : j.conn.client.buf = [] := by
    have len := inv.served.behind.length_le
    rw [input, sent, List.length_append] at len
    exact List.length_eq_zero_iff.mp (by omega)
  have got : j.session.got = stream 4 j.session.printed := by
    have heard := inv.session.heard opened
    rw [prompt] at heard
    exact heard.trans (List.append_nil _)
  have out : j.conn.sent = stream 4 j.session.printed := by
    have told := inv.served.sent
    rw [answers_stream, ← answered] at told
    have front := inv.got
    rw [got] at front
    exact told.eq_of_length_le front.length_le
  rw [buf, List.append_nil] at input
  exact ⟨sent, input, buf, out, got⟩

theorem enter_waiting {j : Joint} (inv : Orderly j) (prompt : j.session.phase = .prompt)
    (active : j.conn.client.active = true) {cmd : Bytes} (some : cmd ≠ [])
    (short : cmd.length ≤ msgMax) :
    Waiting (j.session.typed ++ [cmd]) j.session.printed (step j (.enter cmd)) ∧
      moved (step j (.enter cmd)) =
        2 * (stream 4 j.session.typed).length + 2 * (stream 4 j.session.printed).length := by
  obtain ⟨sent, received, buf, out, got⟩ := prompt_idle inv.toLocked prompt active
  have small : ¬ 2 ^ 32 ≤ cmd.length := by
    rw [msgMax_eq] at short
    omega
  have eq : enter cmd j.session = { j.session with
      phase := .sending (frame 4 cmd), typed := j.session.typed ++ [cmd] } := by
    rw [PythonClient.enter, if_neg (by simp [prompt, some]), if_neg small]
  have orderly := step_orderly inv (e := .enter cmd) trivial
  refine ⟨⟨orderly, congrArg (·.typed) eq, congrArg (·.printed) eq, congrArg (·.phase.waits) eq,
    j.session.typed, [cmd], rfl, ⟨⟨active, inv.served.bounded, ?_, ?_⟩,
    (inv.toLocked.prompt prompt).1, inv.served.output active⟩, fun p _ => ?_⟩, ?_⟩
  · change j.conn.received = stream 4 j.session.typed ++ j.conn.client.buf
    rw [buf, List.append_nil, received]
  · change j.conn.client.buf <+: _
    exact buf ▸ List.nil_prefix
  · change j.conn.client.buf.length < _
    rw [buf, List.length_nil, frameHdrSize_eq]
    omega
  · simp only [moved, step, eq, sent, received, out, got]
    omega

/-- The command has been executed once, and the client has read the response whole: it has been
printed and the prompt is back, or it is no UTF-8 and has ended the client. -/
structure Answered (cmd : Bytes) (call : Call) (j j' : Joint) : Prop where
  asked : call.payload = cmd
  made : Made call
  executed : j'.conn.handed = j.conn.handed ++ [call]
  got : j'.session.got = j.session.got ++ frame 4 call.response
  printed : Decodes call.response →
    j'.session.phase = .prompt ∧ j'.session.printed = j.session.printed ++ [call.response]
  ended : ¬ Decodes call.response →
    j'.session.phase = .closed ∧ j'.session.printed = j.session.printed
  active : j'.conn.client.active = true

theorem run_further {j : Joint} (inv : Locked j) (events : List Event) :
    Further j (run j events) := by
  have keep (i : Joint) (e : Event) (h : Locked i ∧ Further j i) :
      Locked (step i e) ∧ Further j (step i e) :=
    ⟨step_locked h.1 e, h.2.trans (step_further h.1.served.bounded e)⟩
  exact (Transition.run_invariant_always keep ⟨inv, .refl j⟩ events).2

theorem heard_answered {cmd : Bytes} {j j' : Joint} (inv : Locked j)
    (prompt : j.session.phase = .prompt) (idle : Idle j) (further : Further j j')
    (heard : Heard (j.session.typed ++ [cmd]) j.session.printed j') :
    ∃ call, Answered cmd call j j' := by
  obtain ⟨executed, answered⟩ := inv.prompt prompt
  obtain ⟨response, s, same, whole⟩ := heard.whole
  obtain ⟨more, handed⟩ := further.handed
  -- One response more has been read, so there is one call more, and no two were asked for.
  have read : j.session.printed ++ [response] <+: j'.conn.handed.map Call.response := by
    refine stream_prefix (fun r member => ?_) heard.served.legal ?_ (by decide)
    · rcases List.mem_append.mp member with old | new
      · exact inv.session.responses r old
      · exact List.mem_singleton.mp new ▸ whole.small
    · rw [← answers_stream, ← same, ← whole.got]
      exact heard.got.trans heard.served.sent
  have asked := heard.served.executed
  rw [← handed, List.map_append, heard.typed, executed, List.prefix_append_right_inj] at asked
  rw [← handed, List.map_append, ← answered, List.prefix_append_right_inj] at read
  obtain ⟨call, rfl⟩ : ∃ call, more = [call] := by
    have least := read.length_le
    have most := asked.length_le
    simp only [List.length_map, List.length_singleton] at least most
    exact List.length_eq_one_iff.mp (by omega)
  obtain rfl : response = call.response := by simpa using read
  have made : Made call := heard.served.made call (handed ▸ by simp)
  refine ⟨call, by simpa using asked, made, handed.symm, ?_, fun decodes => ?_, fun raises => ?_,
    settled_active heard.settled⟩
  · rw [whole.got, same, idle.got, stream_append, stream_cons, stream_nil, List.append_nil]
  · rw [whole.printed decodes, same]
    exact ⟨rfl, rfl⟩
  · rw [whole.ended raises]
    exact ⟨rfl, same⟩

/-- In a run at the prompt a command is typed. After so many rounds as its frame and the longest
response have bytes to be moved, twice each, its response has been read. -/
theorem run_answered (h : Host) (clientsCount : Nat) {before : List Event} {cmd : Bytes}
    {rounds : List (List Event)} (registered : ∀ e ∈ before, Registered e)
    (prompt : (run (start h clientsCount) before).session.phase = .prompt)
    (active : (run (start h clientsCount) before).conn.client.active = true) (some : cmd ≠ [])
    (short : cmd.length ≤ msgMax) (calm : ∀ round ∈ rounds, ∀ e ∈ round, Calm e)
    (fair : ∀ round ∈ rounds, Fair round)
    (enough : 2 * (4 + cmd.length) + 2 * (4 + msgMax) < rounds.length) :
    ∃ front back call, rounds.flatten = front ++ back ∧
      Answered cmd call (run (start h clientsCount) before)
        (run (start h clientsCount) (before ++ .enter cmd :: front)) := by
  have inv : Orderly (run (start h clientsCount) before) := by
    have keep (j : Joint) (e : Event) (inv : Orderly j) (registered : Registered e) :
        Orderly (step j e) := step_orderly inv registered
    refine Transition.run_invariant keep (start_orderly h clientsCount) ?_
    exact Transition.along_iff_forall.mpr fun front e back split =>
      registered e (split ▸ List.mem_append_right _ List.mem_cons_self)
  simp only [run, Transition.run_append, Transition.run_cons] at inv prompt active ⊢
  generalize Transition.run step (start h clientsCount) before = j at inv prompt active ⊢
  obtain ⟨waiting, start⟩ := enter_waiting inv prompt active some short
  have legal : ∀ p ∈ j.session.typed ++ [cmd], p.length ≤ msgMax := by
    refine List.forall_mem_append.mpr ⟨fun p member => ?_, by simpa using short⟩
    rw [← (inv.toLocked.prompt prompt).1] at member
    obtain ⟨call, there, rfl⟩ := List.mem_map.mp member
    exact inv.served.short call there
  obtain ⟨front, back, split, goal⟩ := (waiting_justice legal).reaches
    (fun i live => live.moved_le) waiting calm fair (by
      rw [start, stream_append, stream_cons, stream_nil, List.append_nil, List.length_append,
        frame_length]
      omega)
  have further := (step_further inv.served.bounded (.enter cmd)).trans
    (run_further waiting.toLocked front)
  obtain ⟨call, answered⟩ := heard_answered inv.toLocked prompt
    (prompt_idle inv.toLocked prompt active) further goal
  exact ⟨front, back, call, split, answered⟩

def steadyRound : List Event := [.push 1, .readable 1 [], .writable (.wrote 1) [], .recv 1]

theorem steadyRound_fair : Fair steadyRound := by
  intro mover
  cases mover with
  | push => exact ⟨.push 1, by simp [steadyRound], Nat.one_pos⟩
  | read => exact ⟨.readable 1 [], by simp [steadyRound], Nat.one_pos⟩
  | write => exact ⟨.writable (.wrote 1) [], by simp [steadyRound], Nat.one_pos⟩
  | recv => exact ⟨.recv 1, by simp [steadyRound], Nat.one_pos⟩

theorem steadyRound_calm : ∀ e ∈ steadyRound, Calm e := by
  simp [steadyRound, Calm]

theorem run_answered_set : ∃ front back call,
    (List.replicate 9000 steadyRound).flatten = front ++ back ∧
      Answered (ascii "SET k v") call (run (start (firstHost {}) 0) [])
        (run (start (firstHost {}) 0) ([] ++ .enter (ascii "SET k v") :: front)) ∧
      Decodes call.response ∧ call.response = ascii "+OK\n" := by
  have rounds (P : List Event → Prop) (h : P steadyRound) :
      ∀ round ∈ List.replicate 9000 steadyRound, P round := fun round member =>
    List.eq_of_mem_replicate member ▸ h
  have enough : 2 * (4 + (ascii "SET k v").length) + 2 * (4 + msgMax) <
      (List.replicate 9000 steadyRound).length := by
    rw [List.length_replicate, msgMax_eq]
    decide
  obtain ⟨front, back, call, split, answered⟩ :=
    @run_answered (firstHost {}) 0 [] (ascii "SET k v") (List.replicate 9000 steadyRound)
      (by simp) rfl rfl (by decide) (by decide)
      (rounds (fun round => ∀ e ∈ round, Calm e) steadyRound_calm) (rounds Fair steadyRound_fair)
      enough
  have response : call.response = ascii "+OK\n" := by
    obtain ⟨io, h, response⟩ := answered.made
    rw [response, answered.asked]
    rfl
  have decodes : Decodes call.response := by
    rw [response]
    exact decodes_ascii (by simp [ascii])
  exact ⟨front, back, call, split, answered, decodes, response⟩

end ByteKV.Responsiveness
