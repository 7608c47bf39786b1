import ByteKV.FramedInput
import ByteKV.ServerRun

/-! Pipelined requests on one connection. A frame whose response finds no room has
been executed and stays in the read buffer, so it is executed again; where every
response finds room, each frame is executed once and answered in order. -/
namespace ByteKV.Delivery
open Config ServerState Command Networking Framing FramedInput PrefixCode
open ServerRun (firstHost)

def answers (calls : List Call) : Bytes :=
  (calls.map fun call => frame frameHdrSize call.response).flatten

def served (calls : List Call) : Bytes := answers (calls.filter fun call => call.Fits)

/-- Every frame that has arrived whole is executed, once and in order, and the output
is the responses, one a call. -/
structure ExactlyOnce (ps : List Bytes) (s : Conn) : Prop where
  executed : s.handed.map Call.payload =
    ps.take (wholeBefore (ps.map (frame frameHdrSize)) s.received.length)
  answered : s.output = answers s.handed

theorem answers_append (calls calls' : List Call) :
    answers (calls ++ calls') = answers calls ++ answers calls' := by
  simp [answers]

theorem served_append (calls calls' : List Call) :
    served (calls ++ calls') = served calls ++ served calls' := by
  rw [served, List.filter_append, answers_append, served, served]

theorem served_single {call : Call} :
    (call.Fits → served [call] = frame frameHdrSize call.response) ∧
      (¬ call.Fits → served [call] = []) := by
  constructor
  · intro fits
    simp [served, answers, fits]
  · intro short
    simp [served, answers, short]

theorem fits_of_answers_length {calls : List Call}
    (le : (answers calls).length ≤ (served calls).length) : ∀ call ∈ calls, call.Fits := by
  have bound (calls : List Call) : (served calls).length ≤ (answers calls).length := by
    induction calls with
    | nil => exact Nat.le_refl 0
    | cons call calls ih =>
      rw [← List.singleton_append, served_append, answers_append, List.length_append,
        List.length_append]
      by_cases fits : call.Fits
      · rw [served_single.1 fits]
        simpa [answers] using ih
      · rw [served_single.2 fits]
        exact (Nat.zero_add _).trans_le (ih.trans (Nat.le_add_left _ _))
  induction calls with
  | nil => simp
  | cons call calls ih =>
    rw [← List.singleton_append, served_append, answers_append, List.length_append,
      List.length_append] at le
    have rest := bound calls
    by_cases fits : call.Fits
    · rw [served_single.1 fits] at le
      have later := ih (by simpa [answers] using le)
      exact List.forall_mem_cons.mpr ⟨fits, later⟩
    · rw [served_single.2 fits] at le
      simp [answers] at le rest
      omega

structure Owes (s : Conn) : Prop where
  bounded : s.Bounded
  output : s.output.length ≤ (served s.handed).length

theorem owes_kept : Kept Owes where
  bounded h := h.bounded
  moved {s s' calls sends} h paired m := by
    have fewer : (acceptedData sends).length ≤ (served calls).length := by
      cases paired with
      | quiet => exact Nat.le_refl 0
      | answered call room => simp [acceptedData, served_single.1 room]
      | unanswered call => exact Nat.zero_le _
    refine ⟨m.bounded, ?_⟩
    rw [m.output, m.handed, served_append, List.length_append, List.length_append]
    exact Nat.add_le_add h.output fewer
  dropped _ h := ⟨h.bounded, h.output⟩
  removed {s} h := by
    have less : (removeClient s).output.length ≤ s.output.length := by
      simp [Conn.output, removeClient, elRemove, Client.unsent]
    exact ⟨Nat.le_refl 0, less.trans h.output⟩
  arrived _ h := ⟨h.bounded, h.output⟩
  elsewhere _ _ h := ⟨h.bounded, h.output⟩

theorem acceptedConn_owes (h : Host) (clientsCount : Nat) : Owes (acceptedConn h clientsCount) :=
  ⟨Nat.le_refl 0, Nat.le_refl 0⟩

/-! A connection all of whose answers find room. -/

structure Delivering (done rest : List Bytes) (s : Conn) : Prop extends Aligned done rest s where
  executed : s.handed.map Call.payload = done
  answered : s.output = answers s.handed

theorem delivering_advances : Advances Delivering := by
  intro done rest p s s' call inv asked whole moved
  refine ⟨aligned_advances inv.toAligned asked whole moved, ?_, ?_⟩
  · change s'.handed.map Call.payload = done ++ [p]
    rw [moved.handed, List.map_append, inv.executed, List.map_singleton, asked]
  · change s'.output = answers s'.handed
    rw [moved.output, moved.handed, answers_append, inv.answered]
    simp [answers, acceptedData]

def Settled (ps : List Bytes) (s : Conn) : Prop :=
  ∃ done rest, ps = done ++ rest ∧ Delivering done rest s ∧ Partial rest s

theorem acceptedConn_settled (h : Host) (clientsCount : Nat) (ps : List Bytes) :
    Settled ps (acceptedConn h clientsCount) :=
  ⟨[], ps, rfl, ⟨⟨rfl, Nat.le_refl 0, rfl, List.nil_prefix⟩, rfl, rfl⟩, fun _ _ => by
    simp [acceptedConn]⟩

theorem processBuffer_settled {ps done rest : List Bytes} {ios : List FrameIo} {s : Conn}
    (legal : ∀ p ∈ ps, p.length ≤ msgMax) (calm : ∀ io ∈ ios, io.send.write ≠ .error)
    (cut : ps = done ++ rest) (inv : Delivering done rest s)
    (fit : ∀ call ∈ (processBuffer ios s).handed, call.Fits) : Settled ps (processBuffer ios s) := by
  obtain ⟨done', rest', same, ends⟩ := processLoop_end Delivering.toAligned delivering_advances
    (fun p hp => legal p (cut ▸ List.mem_append_right _ hp)) calm inv (Nat.lt_succ_self _)
  cases ends with
  | settled inv waits => exact ⟨done', rest', cut.trans same, inv, waits⟩
  | stuck before call inv short moved =>
    refine absurd (fit call ?_) short
    rw [processBuffer, moved.handed]
    exact List.mem_append_right _ (List.mem_singleton_self call)

theorem Delivering.moved {done rest : List Bytes} {s s' : Conn} (inv : Delivering done rest s)
    (moved : Moved s s' [] []) : Delivering done rest s' where
  toAligned := inv.toAligned.moved moved
  executed := by rw [moved.handed, List.append_nil, inv.executed]
  answered := by
    rw [moved.output, moved.handed, List.append_nil, ← inv.answered]
    exact List.append_nil _

theorem Settled.moved {ps : List Bytes} {s s' : Conn} (settled : Settled ps s)
    (moved : Moved s s' [] []) : Settled ps s' := by
  obtain ⟨done, rest, cut, inv, waits⟩ := settled
  exact ⟨done, rest, cut, inv.moved moved, fun p hp => moved.buf ▸ waits p hp⟩

theorem step_settled {ps : List Bytes} (legal : ∀ p ∈ ps, p.length ≤ msgMax) {s : Conn} {e : Event}
    (settled : Settled ps s) (calm : Calm e) (stream : (step s e).received <+: streamOf ps)
    (fit : ∀ call ∈ (step s e).handed, call.Fits) : Settled ps (step s e) := by
  obtain ⟨done, rest, cut, inv, waits⟩ := id settled
  cases e with
  | elsewhere host clientsCount =>
    exact ⟨done, rest, cut,
      ⟨⟨inv.active, inv.bounded, inv.received, inv.ahead⟩, inv.executed, inv.answered⟩, waits⟩
  | readable out ios =>
    obtain ⟨sound, more, calm⟩ := calm
    simp only [step, onRead] at stream fit ⊢
    split
    · rename_i listens
      rw [if_pos listens] at stream fit
      split
      · exact settled
      · rename_i alive
        rw [if_neg alive] at stream fit
        cases out with
        | again => exact settled
        | error => exact absurd rfl sound
        | got available =>
          have room := inv.buf_length (fun p hp => legal p (cut ▸ List.mem_append_right _ hp)) waits
          have some : available.take (msgMax + frameHdrSize - s.client.buf.length) ≠ [] := by
            rw [Ne, List.take_eq_nil_iff]
            rintro (full | rfl)
            · omega
            · exact more rfl
          simp only [if_neg some] at stream fit ⊢
          generalize available.take (msgMax + frameHdrSize - s.client.buf.length) = bytes
            at stream fit ⊢
          have arrived : (arrive bytes s).Bounded := inv.bounded
          have grows := (grows_kept (arrive bytes s)).processLoop
            ((arrive bytes s).client.buf.length + 1) ios (.refl arrived)
          have aligned := inv.arrive cut (grows.received.trans stream)
          exact processBuffer_settled legal calm cut ⟨aligned, inv.executed, inv.answered⟩ fit
    · exact settled
  | writable out ios =>
    obtain ⟨sound, calm⟩ := calm
    simp only [step, onWrite] at stream fit ⊢
    split
    · rename_i listens
      rw [if_pos listens] at stream fit
      cases out with
      | again => exact settled
      | error => exact absurd rfl sound
      | wrote n =>
        have taken := advance_moved n inv.bounded
        simp only at fit ⊢
        split
        · rename_i sent
          rw [if_pos sent] at fit
          have reset := taken.trans (resetWbuf_moved sent)
          exact processBuffer_settled legal calm cut
            (inv.moved (reset.trans (elRemoveWrite_moved reset.bounded))) fit
        · exact settled.moved taken
    · exact settled

theorem Settled.exactlyOnce {ps : List Bytes} {s : Conn} (settled : Settled ps s) :
    ExactlyOnce ps s := by
  obtain ⟨done, rest, rfl, inv, waits⟩ := settled
  have none : wholeBefore (rest.map (frame frameHdrSize)) s.client.buf.length = 0 := by
    refine wholeBefore_eq_zero fun w hw => ?_
    rcases rest with _ | ⟨p, rest⟩
    · simp at hw
    · obtain rfl : frame frameHdrSize p = w := Option.some.inj hw
      exact (waits p rfl).trans_eq (frame_length _ _).symm
  have count : wholeBefore ((done ++ rest).map (frame frameHdrSize)) s.received.length =
      done.length := by
    rw [inv.received, List.length_append, List.map_append, streamOf, wholeBefore_append, none]
    simp
  exact ⟨by rw [count, List.take_left, inv.executed], inv.answered⟩

/-- Every frame is executed exactly once and answered in order, in a run without
failures, exactly when every response of the run finds room. -/
theorem exactlyOnce_iff (h : Host) (clientsCount : Nat) (ps : List Bytes)
    (legal : ∀ p ∈ ps, p.length ≤ msgMax) (events : List Event) (calm : ∀ e ∈ events, Calm e)
    (stream : (run (acceptedConn h clientsCount) events).received <+: streamOf ps) :
    ExactlyOnce ps (run (acceptedConn h clientsCount) events) ↔
      ∀ call ∈ (run (acceptedConn h clientsCount) events).handed, call.Fits := by
  constructor
  · intro once
    refine fits_of_answers_length ?_
    rw [← once.answered]
    exact (owes_kept.run (acceptedConn_owes h clientsCount) events).output
  · intro fit
    suffices settled : Settled ps (run (acceptedConn h clientsCount) events) from
      settled.exactlyOnce
    have start := acceptedConn_settled h clientsCount ps
    generalize acceptedConn h clientsCount = s at start stream fit ⊢
    induction events generalizing s with
    | nil => exact start
    | cons e events ih =>
      obtain ⟨_, _, _, inv, _⟩ := id start
      have bounded := ((grows_kept s).step (.refl inv.bounded) e).bounded
      have later := (grows_kept (step s e)).run (.refl bounded) events
      have kept : Settled ps (step s e) := step_settled legal start (calm e List.mem_cons_self)
        (later.received.trans stream) fun call hcall => fit call (later.handed.subset hcall)
      exact ih (fun f hf => calm f (List.mem_cons_of_mem _ hf)) _ kept stream fit

def slowGet : List Event :=
  [.readable (.got ((streamOf [ascii "SET k v", ascii "GET k"]).take 5)) [],
    .readable (.got (((streamOf [ascii "SET k v", ascii "GET k"]).drop 5).take 9))
      [{ send := { write := .again } }],
    .readable (.got ((streamOf [ascii "SET k v", ascii "GET k"]).drop 14)) [],
    .writable (.wrote 3) [], .writable (.wrote 100) []]

theorem exactlyOnce_iff_slowGet :
    ExactlyOnce [ascii "SET k v", ascii "GET k"] (run (acceptedConn (firstHost {}) 0) slowGet) :=
  (exactlyOnce_iff (firstHost {}) 0 [ascii "SET k v", ascii "GET k"] (by decide) slowGet
    (by decide +kernel) (by decide +kernel)).mpr (by decide +kernel)

/-- The responses to six GETs leave two bytes of the write buffer. -/
def pipelinedDel : List Bytes :=
  [ascii "SET k " ++ List.replicate 1359 118] ++ List.replicate 6 (ascii "GET k") ++ [ascii "DEL k"]

/-- All of it arrives in one read while the socket takes nothing; then it drains. -/
def stalledDel : List Event :=
  [.readable (.got (streamOf pipelinedDel)) [{ send := { write := .again } }],
    .writable (.wrote wbufSize) []]

theorem stalledDel_twice :
    ((run (acceptedConn (firstHost {}) 0) stalledDel).handed.drop 7).map
        (fun call => (call.payload, call.response)) =
      [(ascii "DEL k", ascii "+OK\n"), (ascii "DEL k", ascii "-ERR DEL COMMAND\n")] ∧
    ¬ ExactlyOnce pipelinedDel (run (acceptedConn (firstHost {}) 0) stalledDel) := by
  have last : ((run (acceptedConn (firstHost {}) 0) stalledDel).handed.drop 7).map
      (fun call => (call.payload, call.response)) =
        [(ascii "DEL k", ascii "+OK\n"), (ascii "DEL k", ascii "-ERR DEL COMMAND\n")] := by
    decide +kernel
  refine ⟨last, fun once => ?_⟩
  have frames : pipelinedDel.length = 8 := rfl
  have nine := congrArg List.length last
  have eight := congrArg List.length once.executed
  rw [List.length_map, List.length_drop] at nine
  rw [List.length_map, List.length_take] at eight
  simp only [List.length_cons, List.length_nil] at nine
  omega

end ByteKV.Delivery
