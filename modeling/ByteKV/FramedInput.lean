import ByteKV.Connection

/-! The read side under a stream of legal frames, without failures: the buffer always
holds the front of what is left of the stream, and the loop over it ends for one of two
reasons. -/
namespace ByteKV.FramedInput
open Config Networking Framing

def streamOf (ps : List Bytes) : Bytes := (ps.map (frame frameHdrSize)).flatten

/-- No call fails fatally, and the client does not close its end. -/
def Calm : Event → Prop
  | .readable out ios => out ≠ .error ∧ out ≠ .got [] ∧ ∀ io ∈ ios, io.send.write ≠ .error
  | .writable out ios => out ≠ .error ∧ ∀ io ∈ ios, io.send.write ≠ .error
  | .elsewhere _ _ => True

instance : (e : Event) → Decidable (Calm e)
  | .readable _ _ => inferInstanceAs (Decidable (_ ∧ _ ∧ _))
  | .writable _ _ => inferInstanceAs (Decidable (_ ∧ _))
  | .elsewhere _ _ => inferInstanceAs (Decidable True)

theorem streamOf_append (ps qs : List Bytes) :
    streamOf (ps ++ qs) = streamOf ps ++ streamOf qs := by
  simp [streamOf]

structure Aligned (done rest : List Bytes) (s : Conn) : Prop where
  active : s.client.active = true
  bounded : s.Bounded
  received : s.received = streamOf done ++ s.client.buf
  ahead : s.client.buf <+: streamOf rest

def Partial (rest : List Bytes) (s : Conn) : Prop :=
  ∀ p ∈ rest.head?, s.client.buf.length < frameHdrSize + p.length

section
variable {done rest : List Bytes} {p : Bytes} {s s' : Conn}

theorem Aligned.moved {calls : List Call} {sends : List (Bytes × Bool)} (inv : Aligned done rest s)
    (moved : Moved s s' calls sends) : Aligned done rest s' where
  active := moved.active.trans inv.active
  bounded := moved.bounded
  received := by rw [moved.received, moved.buf, inv.received]
  ahead := moved.buf ▸ inv.ahead

theorem Aligned.dropFrame (inv : Aligned done (p :: rest) s)
    (whole : frameHdrSize + p.length ≤ s.client.buf.length) :
    Aligned (done ++ [p]) rest (dropFrame (frameHdrSize + p.length) s) := by
  obtain ⟨-, cut, ahead⟩ := payload_at_front inv.ahead whole
  refine ⟨inv.active, inv.bounded, ?_, ahead⟩
  change s.received = streamOf (done ++ [p]) ++ s.client.buf.drop _
  rw [inv.received]
  conv_lhs => rw [cut]
  simp [streamOf]

theorem Aligned.arrive {ps : List Bytes} {bytes : Bytes} (inv : Aligned done rest s)
    (cut : ps = done ++ rest) (stream : s.received ++ bytes <+: streamOf ps) :
    Aligned done rest (arrive bytes s) where
  active := inv.active
  bounded := inv.bounded
  received := by
    change s.received ++ bytes = streamOf done ++ (s.client.buf ++ bytes)
    rw [inv.received, List.append_assoc]
  ahead := by
    rw [inv.received, cut, streamOf_append, List.append_assoc] at stream
    exact (List.prefix_append_right_inj _).mp stream

theorem Aligned.buf_length (inv : Aligned done rest s) (legal : ∀ p ∈ rest, p.length ≤ msgMax)
    (waits : Partial rest s) : s.client.buf.length < msgMax + frameHdrSize := by
  rcases rest with _ | ⟨p, rest⟩
  · have empty : s.client.buf = [] := List.prefix_nil.mp inv.ahead
    simp [empty]
  · have short := waits p rfl
    have size := legal p List.mem_cons_self
    omega

theorem Aligned.header (inv : Aligned done (p :: rest) s) (legal : p.length ≤ msgMax)
    (header : frameHdrSize ≤ s.client.buf.length) :
    BigEndian.decode (s.client.buf.take frameHdrSize) = p.length := by
  refine header_at_front ?_ inv.ahead header
  simp only [msgMax_eq, frameHdrSize_eq] at legal ⊢
  omega

theorem Aligned.processLoop_incomplete (inv : Aligned done rest s)
    (legal : ∀ p ∈ rest, p.length ≤ msgMax) (waits : Partial rest s) (rounds : Nat)
    (ios : List FrameIo) : processLoop (rounds + 1) ios s = s := by
  refine processLoop_short rounds ios ?_
  by_cases header : s.client.buf.length < frameHdrSize
  · exact Or.inl header
  · rcases rest with _ | ⟨p, rest⟩
    · have empty : s.client.buf = [] := List.prefix_nil.mp inv.ahead
      simp [empty] at header
    · have size : p.length ≤ msgMax := legal p List.mem_cons_self
      rw [inv.header size (not_lt.mp header)]
      exact Or.inr ⟨size, waits p rfl⟩

theorem Aligned.processLoop_whole {ok : Bool} (inv : Aligned done (p :: rest) s)
    (legal : p.length ≤ msgMax) (whole : frameHdrSize + p.length ≤ s.client.buf.length)
    (rounds : Nat) {ios : List FrameIo} (turn : answerFrame (ios.headD {}) s p = (s', ok)) :
    processLoop (rounds + 1) ios s =
      if ok then processLoop rounds ios.tail (Networking.dropFrame (frameHdrSize + p.length) s')
      else s' := by
  have header : frameHdrSize ≤ s.client.buf.length := (Nat.le_add_right _ _).trans whole
  have payload := (payload_at_front inv.ahead whole).1
  refine processLoop_turn rounds ios header (inv.header legal header) legal whole ?_
  rw [payload]
  exact turn

end

inductive LoopEnd (P : List Bytes → List Bytes → Conn → Prop) (done rest : List Bytes) (s : Conn) :
    Prop
  | settled (inv : P done rest s) (waits : Partial rest s)
  | stuck (before : Conn) (call : Call) (inv : P done rest before) (short : ¬ call.Fits)
      (moved : Moved before s [call] [(frame frameHdrSize call.response, false)])

def Advances (P : List Bytes → List Bytes → Conn → Prop) : Prop :=
  ∀ {done rest p s s' call}, P done (p :: rest) s → call.payload = p →
    frameHdrSize + p.length ≤ s.client.buf.length →
    Moved s s' [call] [(frame frameHdrSize call.response, true)] →
    P (done ++ [p]) rest (dropFrame (frameHdrSize + p.length) s')

theorem processLoop_end {P : List Bytes → List Bytes → Conn → Prop}
    (aligned : ∀ {done rest s}, P done rest s → Aligned done rest s) (advances : Advances P)
    {rounds : Nat} {ios : List FrameIo} {s : Conn} {done rest : List Bytes}
    (legal : ∀ p ∈ rest, p.length ≤ msgMax) (calm : ∀ io ∈ ios, io.send.write ≠ .error)
    (inv : P done rest s) (enough : s.client.buf.length < rounds) :
    ∃ done' rest', done ++ rest = done' ++ rest' ∧
      LoopEnd P done' rest' (processLoop rounds ios s) := by
  induction rounds generalizing ios s done rest with
  | zero => exact absurd enough (Nat.not_lt_zero _)
  | succ rounds ih =>
    by_cases waits : Partial rest s
    · rw [(aligned inv).processLoop_incomplete legal waits]
      exact ⟨done, rest, rfl, .settled inv waits⟩
    · obtain ⟨p, rest, rfl, whole⟩ : ∃ p rest', rest = p :: rest' ∧
          frameHdrSize + p.length ≤ s.client.buf.length := by
        rcases rest with _ | ⟨p, rest⟩
        · simp [Partial] at waits
        · exact ⟨p, rest, rfl, by simpa [Partial] using waits⟩
      have calm_head : (ios.headD {}).send.write ≠ .error := headD_of_forall (by simp) calm
      have turn := answerFrame_cases (ios.headD {}) (aligned inv).bounded p
      obtain ⟨⟨s', ok⟩, eq⟩ : ∃ out, answerFrame (ios.headD {}) s p = out := ⟨_, rfl⟩
      rw [(aligned inv).processLoop_whole (legal p List.mem_cons_self) whole rounds eq]
      rw [eq] at turn
      cases turn with
      | answered _ call asked room moved =>
        have less : (dropFrame (frameHdrSize + p.length) s').client.buf.length < rounds := by
          change (s'.client.buf.drop _).length < rounds
          rw [moved.buf, List.length_drop, frameHdrSize_eq]
          simp only [frameHdrSize_eq] at whole
          omega
        obtain ⟨done', rest', same, ends⟩ := ih
          (fun q hq => legal q (List.mem_cons_of_mem _ hq))
          (fun io hio => calm io (List.mem_of_mem_tail hio))
          (advances inv asked whole moved) less
        exact ⟨done', rest', by rw [← same, List.append_assoc, List.singleton_append], ends⟩
      | full _ call asked short moved => exact ⟨done, p :: rest, rfl, .stuck s call inv short moved⟩
      | dropped gone call asked room failed moved => exact absurd failed calm_head

theorem aligned_advances : Advances Aligned := fun inv _ whole moved =>
  (inv.moved moved).dropFrame (moved.buf.symm ▸ whole)

end ByteKV.FramedInput
