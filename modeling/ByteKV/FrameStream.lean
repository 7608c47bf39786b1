import ByteKV.Framing

/-! Streams of frames: what one stream says of another in front of which it stands. -/
namespace ByteKV.Framing
open BigEndian

variable {width : Nat} {p q s t : List UInt8} {ps qs : List (List UInt8)}

def stream (width : Nat) (ps : List (List UInt8)) : List UInt8 := (ps.map (frame width)).flatten

@[simp] theorem stream_nil (width : Nat) : stream width [] = [] := rfl

@[simp] theorem stream_cons (width : Nat) (p : List UInt8) (ps : List (List UInt8)) :
    stream width (p :: ps) = frame width p ++ stream width ps := rfl

@[simp] theorem stream_append (width : Nat) (ps qs : List (List UInt8)) :
    stream width (ps ++ qs) = stream width ps ++ stream width qs := by
  simp [stream]

theorem frame_append_cancel (hp : p.length < 256 ^ width) (hq : q.length < 256 ^ width)
    (pre : frame width p ++ s <+: frame width q ++ t) : p = q ∧ s <+: t := by
  have header : width ≤ (frame width p ++ s).length := by
    rw [List.length_append, frame_length]
    omega
  have whole : width + p.length ≤ (frame width p ++ s).length := by
    rw [List.length_append, frame_length]
    omega
  have size : q.length = p.length :=
    (header_at_front hq pre header).symm.trans (header_at_front hp List.prefix_rfl header)
  obtain ⟨cut, -, rest⟩ := payload_at_front pre (size ▸ whole)
  obtain ⟨own, -, -⟩ := payload_at_front List.prefix_rfl whole
  rw [size] at cut rest
  have tail : (frame width p ++ s).drop (width + p.length) = s := List.drop_left' (frame_length _ _)
  exact ⟨own.symm.trans cut, tail ▸ rest⟩

theorem stream_prefix (hp : ∀ p ∈ ps, p.length < 256 ^ width)
    (hq : ∀ q ∈ qs, q.length < 256 ^ width)
    (pre : stream width ps <+: stream width qs) (pos : 0 < width) : ps <+: qs := by
  induction ps generalizing qs with
  | nil => exact List.nil_prefix
  | cons p ps ih =>
    rcases qs with _ | ⟨q, qs⟩
    · have len := pre.length_le
      rw [stream_cons, List.length_append, frame_length, stream_nil, List.length_nil] at len
      omega
    · obtain ⟨rfl, rest⟩ :=
        frame_append_cancel (hp p List.mem_cons_self) (hq q List.mem_cons_self) pre
      have later := ih (fun r hr => hp r (List.mem_cons_of_mem _ hr))
        (fun r hr => hq r (List.mem_cons_of_mem _ hr)) rest
      exact (List.prefix_append_right_inj [p]).mpr later

/-- A reader that has part of a frame, header and all or not, has not read another frame. -/
inductive PartOfFrame (width : Nat) : List UInt8 → Prop
  | header (data : List UInt8) (short : data.length < width) : PartOfFrame width data
  | body (length : Nat) (data : List UInt8) (small : length < 256 ^ width)
      (short : data.length < length) : PartOfFrame width (encode width length ++ data)

theorem PartOfFrame.no_frame (part : PartOfFrame width s) (hp : p.length < 256 ^ width) :
    ¬ frame width p <+: s := by
  intro pre
  have len := pre.length_le
  rw [frame_length] at len
  cases part with
  | header data short => omega
  | body length data small short =>
    rw [List.length_append, encode_length] at len
    obtain ⟨tail, eq⟩ := pre
    have header := congrArg (fun l => decode (l.take width)) eq
    simp only [frame, List.append_assoc, List.take_left' (encode_length _ _),
      decode_encode_of_lt hp, decode_encode_of_lt small] at header
    omega

theorem stream_part (hp : ∀ p ∈ ps, p.length < 256 ^ width) (hq : ∀ q ∈ qs, q.length < 256 ^ width)
    (pos : 0 < width) (part : PartOfFrame width s) (all : stream width ps ++ s = stream width qs) :
    ps = qs ∧ s = [] := by
  obtain ⟨more, rfl⟩ := stream_prefix hp hq (all ▸ List.prefix_append _ _) pos
  rw [stream_append] at all
  have rest := List.append_cancel_left all
  rcases more with _ | ⟨q, more⟩
  · exact ⟨(List.append_nil ps).symm, rest⟩
  · refine absurd ?_ (part.no_frame (hq q (by simp)))
    rw [rest]
    exact List.prefix_append _ _

end ByteKV.Framing
