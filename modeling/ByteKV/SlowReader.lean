import ByteKV.FramedInput
import ByteKV.ServerRun

/-! A client that is slow to read its responses. While a response finds no room, its
frame stays in the read buffer; once that is full, a read asks for no bytes at all and
its result is taken for the end of the stream. -/
namespace ByteKV.SlowReader
open Config ServerState Networking FramedInput
open ServerRun (firstHost)

def ReadsFull (s : Conn) : Event → Prop
  | .readable (.got _) _ => msgMax + frameHdrSize ≤ s.client.buf.length
  | _ => False

instance (s : Conn) : (e : Event) → Decidable (ReadsFull s e)
  | .readable (.got _) _ => inferInstanceAs (Decidable (_ ≤ _))
  | .readable .again _ => inferInstanceAs (Decidable False)
  | .readable .error _ => inferInstanceAs (Decidable False)
  | .writable _ _ => inferInstanceAs (Decidable False)
  | .elsewhere _ _ => inferInstanceAs (Decidable False)

structure Listening (done rest : List Bytes) (s : Conn) : Prop extends Aligned done rest s where
  readHandler : s.readHandler = some .onRead

theorem Listening.moved {done rest : List Bytes} {s s' : Conn} {calls : List Call}
    {sends : List (Bytes × Bool)} (inv : Listening done rest s) (m : Moved s s' calls sends) :
    Listening done rest s' :=
  ⟨inv.toAligned.moved m, m.readHandler.trans inv.readHandler⟩

theorem listening_advances : Advances Listening := fun inv asked whole m =>
  ⟨aligned_advances inv.toAligned asked whole m, m.readHandler.trans inv.readHandler⟩

theorem processBuffer_listening {ps done rest : List Bytes} {ios : List FrameIo} {s : Conn}
    (legal : ∀ p ∈ ps, p.length ≤ msgMax) (calm : ∀ io ∈ ios, io.send.write ≠ .error)
    (cut : ps = done ++ rest) (inv : Listening done rest s) :
    ∃ done' rest', ps = done' ++ rest' ∧ Listening done' rest' (processBuffer ios s) := by
  obtain ⟨done', rest', same, ends⟩ := processLoop_end Listening.toAligned listening_advances
    (fun p hp => legal p (cut ▸ List.mem_append_right _ hp)) calm inv (Nat.lt_succ_self _)
  refine ⟨done', rest', cut.trans same, ?_⟩
  cases ends with
  | settled inv waits => exact inv
  | stuck before call inv short m => exact inv.moved m

def Open (ps : List Bytes) (s : Conn) : Prop :=
  ∃ done rest, ps = done ++ rest ∧ Listening done rest s

theorem acceptedConn_open (h : Host) (clientsCount : Nat) (ps : List Bytes) :
    Open ps (acceptedConn h clientsCount) :=
  ⟨[], ps, rfl, ⟨rfl, Nat.le_refl 0, rfl, List.nil_prefix⟩, rfl⟩

/-- One event: a read into a full buffer removes the client, and nothing else does. -/
theorem step_open {ps : List Bytes} (legal : ∀ p ∈ ps, p.length ≤ msgMax) {s : Conn} {e : Event}
    (opened : Open ps s) (calm : Calm e) (stream : (step s e).received <+: streamOf ps) :
    (ReadsFull s e ∧ step s e = removeClient s) ∨ (¬ ReadsFull s e ∧ Open ps (step s e)) := by
  obtain ⟨done, rest, cut, inv⟩ := id opened
  cases e with
  | elsewhere h clientsCount =>
    exact Or.inr ⟨id, done, rest, cut, ⟨inv.active, inv.bounded, inv.received, inv.ahead⟩,
      inv.readHandler⟩
  | writable out ios =>
    obtain ⟨sound, calm⟩ := calm
    refine Or.inr ⟨id, ?_⟩
    simp only [step, onWrite]
    split
    · cases out with
      | again => exact opened
      | error => exact absurd rfl sound
      | wrote n =>
        have taken := advance_moved n inv.bounded
        simp only
        split
        · rename_i sent
          have reset := taken.trans (resetWbuf_moved sent)
          exact processBuffer_listening legal calm cut
            (inv.moved (reset.trans (elRemoveWrite_moved reset.bounded)))
        · exact ⟨done, rest, cut, inv.moved taken⟩
    · exact opened
  | readable out ios =>
    obtain ⟨sound, more, calm⟩ := calm
    have alive : ¬ s.client.active = false := by simp [inv.active]
    simp only [step, onRead, if_pos inv.readHandler, if_neg alive] at stream ⊢
    cases out with
    | again => exact Or.inr ⟨id, opened⟩
    | error => exact absurd rfl sound
    | got available =>
      simp only [List.take_eq_nil_iff] at stream ⊢
      by_cases full : msgMax + frameHdrSize ≤ s.client.buf.length
      · exact Or.inl ⟨full, if_pos (Or.inl (Nat.sub_eq_zero_of_le full))⟩
      · have some : ¬ (msgMax + frameHdrSize - s.client.buf.length = 0 ∨ available = []) := by
          rintro (none | rfl)
          · omega
          · exact more rfl
        rw [if_neg some] at stream ⊢
        generalize available.take (msgMax + frameHdrSize - s.client.buf.length) = bytes
          at stream ⊢
        have arrived : (arrive bytes s).Bounded := inv.bounded
        have grows := (grows_kept (arrive bytes s)).processLoop
          ((arrive bytes s).client.buf.length + 1) ios (.refl arrived)
        have aligned := inv.arrive cut (grows.received.trans stream)
        exact Or.inr ⟨full, processBuffer_listening legal calm cut ⟨aligned, inv.readHandler⟩⟩

/-- A client that sends legal frames and keeps its end open stays connected, in a run
without failures, exactly when no read meets a full buffer. -/
theorem active_iff (h : Host) (clientsCount : Nat) (ps : List Bytes)
    (legal : ∀ p ∈ ps, p.length ≤ msgMax) (events : List Event) (calm : ∀ e ∈ events, Calm e)
    (stream : (run (acceptedConn h clientsCount) events).received <+: streamOf ps) :
    (run (acceptedConn h clientsCount) events).client.active = true ↔
      Transition.Along step (fun s e => ¬ ReadsFull s e) (acceptedConn h clientsCount) events := by
  have start := acceptedConn_open h clientsCount ps
  generalize acceptedConn h clientsCount = s at start stream ⊢
  induction events generalizing s with
  | nil =>
    obtain ⟨_, _, _, inv⟩ := start
    exact iff_of_true inv.active trivial
  | cons e events ih =>
    obtain ⟨_, _, _, inv⟩ := id start
    have bounded := ((grows_kept s).step (.refl inv.bounded) e).bounded
    have later := (grows_kept (step s e)).run (.refl bounded) events
    rcases step_open legal start (calm e List.mem_cons_self) (later.received.trans stream)
      with ⟨full, removed⟩ | ⟨roomy, opened⟩
    · have gone : Gone (step s e) := removed ▸ ⟨rfl, rfl, rfl⟩
      refine iff_of_false ?_ fun along => along.1 full
      have inactive := (run_gone gone events).inactive
      simpa [run] using inactive
    · have rest := ih (fun f hf => calm f (List.mem_cons_of_mem _ hf)) _ opened stream
      exact rest.trans ⟨fun along => ⟨roomy, along⟩, And.right⟩

/-- A SET, six GETs, a frame of `MSG_MAX` bytes and one more frame. -/
def pipelined : List Bytes :=
  [ascii "SET k " ++ List.replicate 1359 118] ++ List.replicate 6 (ascii "GET k") ++
    [List.replicate 4096 120, ascii "GET k"]

/-- The first seven frames in one read, then the long one, for which there is no room; but the
socket takes the responses before all that is left is read. -/
def slowTakes : List Event :=
  [.readable (.got ((streamOf pipelined).take 1423)) [{ send := { write := .again } }],
    .readable (.got (((streamOf pipelined).drop 1423).take 4100)) [],
    .writable (.wrote 8198) [],
    .readable (.got ((streamOf pipelined).drop 5523)) []]

theorem active_iff_slowTakes :
    (run (acceptedConn (firstHost {}) 0) slowTakes).client.active = true :=
  (active_iff (firstHost {}) 0 pipelined (by decide +kernel) slowTakes (by decide +kernel)
    (by decide +kernel)).mpr (by decide +kernel)

def slowReads : List Event :=
  [.readable (.got ((streamOf pipelined).take 1423)) [{ send := { write := .again } }],
    .readable (.got (((streamOf pipelined).drop 1423).take 4100)) [],
    .readable (.got ((streamOf pipelined).drop 5523)) []]

theorem slowReads_removed :
    (∀ p ∈ pipelined, p.length ≤ msgMax) ∧ (∀ e ∈ slowReads, Calm e) ∧
      (run (acceptedConn (firstHost {}) 0) slowReads).client.active = false := by
  refine ⟨by decide +kernel, by decide +kernel, by decide +kernel⟩

end ByteKV.SlowReader
