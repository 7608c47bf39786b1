import ByteKV.Config
import ByteKV.FrameStream

/-! client.py in its interactive mode: one command at a time, and nothing is sent before the
response to the last one has been read whole. The calls of the socket come in pieces of any
size; the terminal takes any text, and what it shows is the list of payloads printed. -/
namespace ByteKV.PythonClient
open Config Framing

/-- `bytes.decode()` is strict: it raises on what is not well-formed UTF-8. -/
def Decodes (payload : Bytes) : Prop := payload.toByteArray.IsValidUTF8

instance (payload : Bytes) : Decidable (Decodes payload) :=
  inferInstanceAs (Decidable payload.toByteArray.IsValidUTF8)

theorem decodes_ascii {payload : Bytes} (ascii : ∀ b ∈ payload, b < 128) : Decodes payload := by
  induction payload with
  | nil => exact ByteArray.isValidUTF8_empty
  | cons b rest ih =>
    obtain ⟨low, ascii⟩ := List.forall_mem_cons.mp ascii
    have one : [b].toByteArray.IsValidUTF8 := by
      have size : (Char.ofUInt8 b).utf8Size = 1 := by
        rw [Char.utf8Size_eq_one_iff, UInt32.le_iff_toNat_le]
        have val : (Char.ofUInt8 b).val.toNat = b.toNat := UInt8.toNat_toUInt32 b
        exact val.trans_le (Nat.le_of_lt_succ (UInt8.lt_iff_toNat_lt.mp low))
      have char : (Char.ofUInt8 b).toUInt8 = b := UInt8.toUInt8_toUInt32 b
      have pushed := ByteArray.isValidUTF8_empty.push size
      rwa [char] at pushed
    rw [Decodes, ← List.singleton_append, List.toByteArray_append]
    exact one.append (ih ascii)

-- A listing that is cut inside a character of two bytes.
example : Decodes [107, 195, 169] ∧ ¬ Decodes [107, 195] := by decide +kernel

/-- Where the loop of `main` stands. `sendall` has `rest` still to send; the two calls of
`recv_exact` have `data` so far. -/
inductive Phase
  | prompt
  | sending (rest : Bytes)
  | header (data : Bytes)
  | body (length : Nat) (data : Bytes)
  | closed
  deriving DecidableEq, Repr

/-- The last four fields are a history. -/
structure Session where
  phase : Phase := .prompt
  typed : List Bytes := []
  printed : List Bytes := []
  sent : Bytes := []
  got : Bytes := []
  deriving DecidableEq, Repr

/-- A line has been read, stripped and encoded. `struct.pack` raises on lengths of 33 bits. -/
def enter (cmd : Bytes) (s : Session) : Session :=
  if s.phase ≠ .prompt ∨ cmd = [] then s
  else if 2 ^ 32 ≤ cmd.length then { s with phase := .closed }
  else { s with phase := .sending (frame 4 cmd), typed := s.typed ++ [cmd] }

def push (n : Nat) (s : Session) : Session :=
  match s.phase with
  | .sending rest =>
      { s with
        phase := if rest.drop n = [] then .header [] else .sending (rest.drop n)
        sent := s.sent ++ rest.take n }
  | _ => s

def wanted : Phase → Nat
  | .header data => 4 - data.length
  | .body length data => length - data.length
  | _ => 0

/-- `recv_exact` for the payload. Once it is all there it is decoded and printed; no handler in
`main` is there for the exception of the decoder, which ends the client. -/
def collect (length : Nat) (data : Bytes) (s : Session) : Session :=
  if data.length < length then { s with phase := .body length data }
  else if Decodes data then { s with phase := .prompt, printed := s.printed ++ [data] }
  else { s with phase := .closed }

def receive (chunk : Bytes) (s : Session) : Session :=
  match s.phase with
  | .header data =>
      let data := data ++ chunk
      let s := { s with got := s.got ++ chunk }
      if data.length < 4 then { s with phase := .header data }
      else collect (BigEndian.decode data) [] s
  | .body length data => collect length (data ++ chunk) { s with got := s.got ++ chunk }
  | _ => s

/-- The end of the input, an interrupt, or a line that is no text. -/
def quit (s : Session) : Session := { s with phase := .closed }

/-! What a session has sent and read. -/

def Phase.unsent : Phase → Bytes
  | .sending rest => rest
  | _ => []

def Phase.part : Phase → Bytes
  | .header data => data
  | .body length data => BigEndian.encode 4 length ++ data
  | _ => []

def Phase.waits : Phase → Bool
  | .sending _ | .header _ | .body _ _ => true
  | _ => false

def Phase.Unfinished : Phase → Prop
  | .sending rest => rest ≠ []
  | .header data => data.length < 4
  | .body length data => length < 256 ^ 4 ∧ data.length < length
  | _ => True

theorem Phase.Unfinished.part {phase : Phase} (unfinished : phase.Unfinished) :
    PartOfFrame 4 phase.part := by
  cases phase with
  | header data => exact .header data unfinished
  | body length data => exact .body length data unfinished.1 unfinished.2
  | prompt | sending | closed => exact .header [] (by decide)

def Legal (payloads : List Bytes) : Prop := ∀ p ∈ payloads, p.length < 256 ^ 4

/-- One response is printed for each command but perhaps the last one. -/
structure Session.Ok (s : Session) : Prop where
  legal : Legal s.typed
  responses : Legal s.printed
  decoded : ∀ p ∈ s.printed, Decodes p
  behind : s.sent <+: stream 4 s.typed
  wire : s.phase ≠ .closed → s.sent ++ s.phase.unsent = stream 4 s.typed
  told : stream 4 s.printed <+: s.got
  heard : s.phase ≠ .closed → s.got = stream 4 s.printed ++ s.phase.part
  unfinished : s.phase.Unfinished
  turn : s.typed.length ≤ s.printed.length + 1
  idle : s.phase = .prompt → s.typed.length = s.printed.length
  busy : s.phase.waits = true → s.typed.length = s.printed.length + 1

namespace Session.Ok
variable {s : Session}

theorem start : Session.Ok {} where
  legal := by simp [Legal]
  responses := by simp [Legal]
  decoded := nofun
  behind := List.prefix_rfl
  wire _ := rfl
  told := List.prefix_rfl
  heard _ := rfl
  unfinished := trivial
  turn := by decide
  idle _ := rfl
  busy := nofun

theorem quit (ok : s.Ok) : (quit s).Ok where
  legal := ok.legal
  responses := ok.responses
  decoded := ok.decoded
  behind := ok.behind
  wire := fun open' => absurd rfl open'
  told := ok.told
  heard := fun open' => absurd rfl open'
  unfinished := trivial
  turn := ok.turn
  idle := nofun
  busy := nofun

theorem enter (ok : s.Ok) (cmd : Bytes) : (enter cmd s).Ok := by
  unfold PythonClient.enter
  split
  · exact ok
  · rename_i ready
    rw [not_or, not_not] at ready
    split
    · exact ok.quit
    · rename_i short
      have idle := ok.idle ready.1
      have wire : s.sent = stream 4 s.typed := by
        have all := ok.wire (by simp [ready.1])
        rw [ready.1] at all
        exact (List.append_nil _).symm.trans all
      have all : s.sent ++ frame 4 cmd = stream 4 (s.typed ++ [cmd]) := by
        rw [wire, stream_append, stream_cons, stream_nil, List.append_nil]
      refine ⟨fun p member => ?_, ok.responses, ok.decoded, all ▸ List.prefix_append _ _,
        fun _ => all, ok.told, fun _ => ?_, fun none => ?_, ?_, nofun, fun _ => ?_⟩
      · rcases List.mem_append.mp member with old | new
        · exact ok.legal p old
        · rw [List.mem_singleton.mp new]
          omega
      · have heard := ok.heard (by simp [ready.1])
        rwa [ready.1] at heard
      · have len := congrArg List.length none
        rw [frame_length, List.length_nil] at len
        omega
      · rw [List.length_append, List.length_singleton, idle]
      · rw [List.length_append, List.length_singleton, idle]

theorem push (ok : s.Ok) (n : Nat) : (push n s).Ok := by
  unfold PythonClient.push
  split
  · rename_i rest sending
    have wire := ok.wire (by simp [sending])
    have heard := ok.heard (by simp [sending])
    have busy := ok.busy (by simp [sending, Phase.waits])
    rw [sending] at wire heard
    have all : (s.sent ++ rest.take n) ++ rest.drop n = stream 4 s.typed := by
      rw [List.append_assoc, List.take_append_drop]
      exact wire
    refine ⟨ok.legal, ok.responses, ok.decoded, all ▸ List.prefix_append _ _, fun _ => ?_, ok.told,
      fun _ => ?_, ?_, ok.turn, fun prompt => ?_, fun _ => busy⟩
    · simp only
      split
      · rename_i none
        rw [← all, none]
        rfl
      · exact all
    · simp only
      split <;> exact heard
    · simp only
      split
      · exact Nat.zero_lt_succ 3
      · assumption
    · simp only at prompt
      split at prompt <;> cases prompt
  · exact ok

end Session.Ok

/-! What comes in. -/

structure Partly (s s' : Session) : Prop where
  same : s' = { s with phase := s'.phase, got := s'.got }
  got : s'.got = stream 4 s.printed ++ s'.phase.part
  waits : s'.phase.waits = true
  unsent : s'.phase.unsent = []
  unfinished : s'.phase.Unfinished

/-- A response has been read whole: it is printed if it decodes, and ends the client if not. -/
structure Whole (response : Bytes) (s s' : Session) : Prop where
  small : response.length < 256 ^ 4
  got : s'.got = stream 4 (s.printed ++ [response])
  printed : Decodes response → s' = { s with
    phase := .prompt, printed := s.printed ++ [response], got := s'.got }
  ended : ¬ Decodes response → s' = { s with phase := .closed, got := s'.got }

theorem collect_cases {s : Session} {length : Nat} {data got : Bytes} (small : length < 256 ^ 4)
    (room : data.length ≤ length)
    (heard : got = stream 4 s.printed ++ (BigEndian.encode 4 length ++ data)) :
    Partly s (collect length data { s with got := got }) ∨
      Whole data s (collect length data { s with got := got }) := by
  unfold collect
  split
  · exact Or.inl ⟨rfl, heard, rfl, rfl, small, ‹_›⟩
  · rename_i whole
    have full : data.length = length := Nat.le_antisymm room (not_lt.mp whole)
    have read : got = stream 4 (s.printed ++ [data]) := by
      rw [heard, stream_append, stream_cons, stream_nil, List.append_nil, frame, full]
    refine Or.inr ⟨full ▸ small, ?_, fun decodes => ?_, fun raises => ?_⟩
    · split <;> exact read
    · rw [if_pos decodes]
    · rw [if_neg raises]

theorem receive_idle {s : Session} (idle : ¬ (s.phase.waits = true ∧ s.phase.unsent = []))
    {chunk : Bytes} : receive chunk s = s := by
  cases phase : s.phase with
  | header data | body length data => exact absurd (by rw [phase]; exact ⟨rfl, rfl⟩) idle
  | prompt | sending rest | closed => simp only [receive, phase]

namespace Session.Ok
variable {s : Session}

theorem receive_cases (ok : s.Ok) (waits : s.phase.waits = true) (unsent : s.phase.unsent = [])
    {chunk : Bytes} (room : chunk.length ≤ wanted s.phase) :
    Partly s (PythonClient.receive chunk s) ∨
      ∃ response, Whole response s (PythonClient.receive chunk s) := by
  have unfinished := ok.unfinished
  cases phase : s.phase with
  | sending rest =>
    rw [phase] at unsent unfinished
    exact absurd unsent unfinished
  | header data =>
    have heard := ok.heard (by simp [phase])
    rw [phase] at heard room unfinished
    have got : s.got ++ chunk = stream 4 s.printed ++ (data ++ chunk) := by
      rw [heard, Phase.part, List.append_assoc]
    by_cases short : (data ++ chunk).length < 4
    · left
      simp only [PythonClient.receive, phase, if_pos short]
      exact ⟨rfl, got, rfl, rfl, short⟩
    · have size : (data ++ chunk).length = 4 := by
        rw [List.length_append] at short ⊢
        simp only [wanted, Phase.Unfinished] at room unfinished
        omega
      have word := BigEndian.encode_decode (data ++ chunk)
      have small := BigEndian.decode_lt (data ++ chunk)
      rw [size] at word small
      simp only [PythonClient.receive, phase, if_neg short]
      refine (collect_cases small (Nat.zero_le _) ?_).imp_right fun whole => ⟨[], whole⟩
      rw [word, List.append_nil]
      exact got
  | body length data =>
    have heard := ok.heard (by simp [phase])
    rw [phase] at heard room unfinished
    simp only [PythonClient.receive, phase]
    refine (collect_cases unfinished.1 ?_ ?_).imp_right fun whole => ⟨data ++ chunk, whole⟩
    · rw [List.length_append]
      simp only [wanted, Phase.Unfinished] at room unfinished
      omega
    · simp only [heard, Phase.part, List.append_assoc]
  | prompt | closed =>
    rw [phase] at waits
    cases waits

theorem partly (ok : s.Ok) (sent : s.sent = stream 4 s.typed)
    (busy : s.typed.length = s.printed.length + 1) {t : Session} (partly : Partly s t) : t.Ok := by
  obtain ⟨same, got, waits, unsent, unfinished⟩ := partly
  rw [same]
  refine ⟨ok.legal, ok.responses, ok.decoded, ok.behind, fun _ => ?_, got ▸ List.prefix_append _ _,
    fun _ => got, unfinished, ok.turn, fun prompt => ?_, fun _ => busy⟩
  · change s.sent ++ t.phase.unsent = stream 4 s.typed
    rw [unsent, List.append_nil, sent]
  · change t.phase = .prompt at prompt
    rw [prompt] at waits
    cases waits

theorem whole (ok : s.Ok) (sent : s.sent = stream 4 s.typed)
    (busy : s.typed.length = s.printed.length + 1) {response : Bytes} {t : Session}
    (whole : Whole response s t) : t.Ok := by
  obtain ⟨small, got, printed, ended⟩ := whole
  by_cases decodes : Decodes response
  · rw [printed decodes]
    refine ⟨ok.legal, ?_, ?_, ok.behind, fun _ => (List.append_nil _).trans sent,
      got ▸ List.prefix_rfl, fun _ => got.trans (List.append_nil _).symm, trivial, ?_, fun _ => ?_,
      nofun⟩
    · exact List.forall_mem_append.mpr ⟨ok.responses, by simpa using small⟩
    · exact List.forall_mem_append.mpr ⟨ok.decoded, by simpa using decodes⟩
    · rw [List.length_append, busy]
      exact Nat.le_succ _
    · rw [List.length_append, busy]
      rfl
  · rw [ended decodes]
    refine ⟨ok.legal, ok.responses, ok.decoded, ok.behind, fun opened => absurd rfl opened, ?_,
      fun opened => absurd rfl opened, trivial, busy.le, nofun, nofun⟩
    change stream 4 s.printed <+: t.got
    rw [got, stream_append]
    exact List.prefix_append _ _

theorem receive (ok : s.Ok) {chunk : Bytes} (room : chunk.length ≤ wanted s.phase) :
    (receive chunk s).Ok := by
  by_cases listens : s.phase.waits = true ∧ s.phase.unsent = []
  · obtain ⟨waits, unsent⟩ := listens
    have sent := ok.wire (by rintro closed; rw [closed] at waits; cases waits)
    rw [unsent, List.append_nil] at sent
    rcases ok.receive_cases waits unsent room with part | ⟨response, all⟩
    · exact ok.partly sent (ok.busy waits) part
    · exact ok.whole sent (ok.busy waits) all
  · rw [receive_idle listens]
    exact ok

theorem receive_waits (ok : s.Ok) (waits : s.phase.waits = true) {chunk : Bytes}
    (room : chunk.length ≤ wanted s.phase) :
    (∃ response, Whole response s (PythonClient.receive chunk s)) ∨
      ((PythonClient.receive chunk s).phase.waits = true ∧
        (PythonClient.receive chunk s).printed = s.printed) := by
  by_cases unsent : s.phase.unsent = []
  · rcases ok.receive_cases waits unsent room with part | whole
    · exact Or.inr ⟨part.waits, by rw [part.same]⟩
    · exact Or.inl whole
  · rw [receive_idle fun listens => unsent listens.2]
    exact Or.inr ⟨waits, rfl⟩

end Session.Ok

end ByteKV.PythonClient
