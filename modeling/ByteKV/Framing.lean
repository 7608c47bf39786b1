import ByteKV.BigEndian
import ByteKV.PrefixCode

/-! Length-prefixed frames: a big-endian length of fixed width and a payload. A
stream of frames is read from its front, and all that is known of what has arrived
is that it is a prefix of the stream. -/
namespace ByteKV.Framing
open BigEndian PrefixCode

variable {width : Nat} {payload rest buf : List UInt8}

def frame (width : Nat) (payload : List UInt8) : List UInt8 :=
  encode width payload.length ++ payload

@[simp] theorem frame_length (width : Nat) (payload : List UInt8) :
    (frame width payload).length = width + payload.length := by
  simp [frame]

theorem header_at_front (small : payload.length < 256 ^ width)
    (pre : buf <+: frame width payload ++ rest) (header : width ≤ buf.length) :
    decode (buf.take width) = payload.length := by
  have same : buf.take width = encode width payload.length := by
    obtain ⟨later, eq⟩ := pre
    have cut := congrArg (List.take width) eq
    rw [List.take_append_of_le_length header, frame, List.append_assoc] at cut
    rw [cut]
    exact List.take_left' (encode_length _ _)
  rw [same, decode_encode_of_lt small]

theorem payload_at_front (pre : buf <+: frame width payload ++ rest)
    (whole : width + payload.length ≤ buf.length) :
    (buf.drop width).take payload.length = payload ∧
      buf = frame width payload ++ buf.drop (width + payload.length) ∧
      buf.drop (width + payload.length) <+: rest := by
  have front : frame width payload <+: buf :=
    List.prefix_of_prefix_length_le (List.prefix_append _ _) pre (by simpa using whole)
  obtain ⟨tail, rfl⟩ := front
  have dropped : (frame width payload ++ tail).drop (width + payload.length) = tail :=
    List.drop_left' (frame_length _ _)
  refine ⟨?_, by rw [dropped], ?_⟩
  · rw [frame, List.append_assoc, List.drop_left' (encode_length _ _), List.take_left]
  · rw [dropped]
    exact (List.prefix_append_right_inj _).mp pre

/-! The greedy split of a stream, which stops at the first header above the limit. -/

structure Cut where
  payloads : List (List UInt8)
  rest : List UInt8
  oversized : Bool
  deriving DecidableEq, Repr

def Cut.after (payloads : List (List UInt8)) (c : Cut) : Cut :=
  { c with payloads := payloads ++ c.payloads }

def greedyLoop (width max : Nat) : (rounds : Nat) → List UInt8 → Cut
  | 0, s => ⟨[], s, false⟩
  | rounds + 1, s =>
      let n := decode (s.take width)
      if s.length < width then ⟨[], s, false⟩
      else if max < n then ⟨[], s, true⟩
      else if s.length < width + n then ⟨[], s, false⟩
      else (greedyLoop width max rounds (s.drop (width + n))).after [(s.drop width).take n]

def greedy (width max : Nat) (s : List UInt8) : Cut := greedyLoop width max (s.length + 1) s

section Greedy
variable {width max : Nat} {s t : List UInt8}

theorem greedyLoop_rounds (pos : 0 < width) {m n : Nat} (hm : s.length < m) (hn : s.length < n) :
    greedyLoop width max m s = greedyLoop width max n s := by
  induction m generalizing n s with
  | zero => exact absurd hm (Nat.not_lt_zero _)
  | succ m ih =>
    cases n with
    | zero => exact absurd hn (Nat.not_lt_zero _)
    | succ n =>
      simp only [greedyLoop]
      split
      · rfl
      · split
        · rfl
        · split
          · rfl
          · rw [ih (n := n)] <;> rw [List.length_drop] <;> omega

inductive Front (width max : Nat) (s : List UInt8) : Prop
  | short (eq : greedy width max s = ⟨[], s, false⟩) (few : s.length < width + max)
      (why : s.length < width ∨
        decode (s.take width) ≤ max ∧ s.length < width + decode (s.take width))
  | oversized (header : width ≤ s.length) (big : max < decode (s.take width))
  | whole (header : width ≤ s.length) (small : decode (s.take width) ≤ max)
      (there : width + decode (s.take width) ≤ s.length)

theorem greedy_oversized (header : width ≤ s.length) (big : max < decode (s.take width)) :
    greedy width max s = ⟨[], s, true⟩ := by
  rw [greedy, greedyLoop, if_neg (not_lt.mpr header), if_pos big]

theorem front (width max : Nat) (s : List UInt8) : Front width max s := by
  by_cases header : s.length < width
  · exact .short (by simp only [greedy, greedyLoop, if_pos header])
      (header.trans_le (Nat.le_add_right _ _)) (Or.inl header)
  · by_cases big : max < decode (s.take width)
    · exact .oversized (not_lt.mp header) big
    · by_cases waits : s.length < width + decode (s.take width)
      · refine .short ?_ (by omega) (Or.inr ⟨not_lt.mp big, waits⟩)
        simp only [greedy, greedyLoop, if_neg header, if_neg big, if_pos waits]
      · exact .whole (not_lt.mp header) (not_lt.mp big) (not_lt.mp waits)

theorem greedy_whole (pos : 0 < width) (header : width ≤ s.length)
    (small : decode (s.take width) ≤ max) (there : width + decode (s.take width) ≤ s.length) :
    greedy width max s =
      (greedy width max (s.drop (width + decode (s.take width)))).after
        [(s.drop width).take (decode (s.take width))] := by
  have less : (s.drop (width + decode (s.take width))).length < s.length := by
    rw [List.length_drop]
    omega
  rw [greedy, greedyLoop, if_neg (not_lt.mpr header), if_neg (not_lt.mpr small),
    if_neg (not_lt.mpr there), greedy, greedyLoop_rounds pos less (Nat.lt_succ_self _)]

theorem greedy_append (pos : 0 < width) (max : Nat) (s t : List UInt8) :
    greedy width max (s ++ t) =
      (greedy width max ((greedy width max s).rest ++ t)).after (greedy width max s).payloads := by
  induction len : s.length using Nat.strongRecOn generalizing s with
  | _ n ih =>
    cases front width max s with
    | short eq few why => rw [eq]; rfl
    | oversized header big => rw [greedy_oversized header big]; rfl
    | whole header small there =>
      have same : (s ++ t).take width = s.take width := List.take_append_of_le_length header
      have longer : s.length ≤ (s ++ t).length := by simp
      have small' : decode ((s ++ t).take width) ≤ max := same.symm ▸ small
      have whole := greedy_whole pos (header.trans longer) small' (same.symm ▸ there.trans longer)
      have less : (s.drop (width + decode (s.take width))).length < n := by
        rw [List.length_drop]
        omega
      rw [same, List.drop_append_of_le_length there, List.drop_append_of_le_length header,
        List.take_append_of_le_length (by rw [List.length_drop]; omega), ih _ less _ rfl] at whole
      rw [whole, greedy_whole pos header small there]
      simp [Cut.after]

theorem greedy_rest (pos : 0 < width) (max : Nat) (s : List UInt8) :
    greedy width max (greedy width max s).rest =
      ⟨[], (greedy width max s).rest, (greedy width max s).oversized⟩ ∧
    ((greedy width max s).oversized = false → (greedy width max s).rest.length < width + max) := by
  induction len : s.length using Nat.strongRecOn generalizing s with
  | _ n ih =>
    cases front width max s with
    | short eq few why => rw [eq]; exact ⟨eq, fun _ => few⟩
    | oversized header big =>
      have eq := greedy_oversized header big
      rw [eq]
      exact ⟨eq, fun h => by simp at h⟩
    | whole header small there =>
      have less : (s.drop (width + decode (s.take width))).length < n := by
        rw [List.length_drop]
        omega
      rw [greedy_whole pos header small there]
      exact ih _ less _ rfl

theorem greedy_append_oversized (pos : 0 < width) (h : (greedy width max s).oversized = true)
    (t : List UInt8) :
    (greedy width max (s ++ t)).payloads = (greedy width max s).payloads ∧
      (greedy width max (s ++ t)).oversized = true := by
  obtain ⟨stuck, -⟩ := greedy_rest pos max s
  rw [h] at stuck
  rw [greedy_append pos]
  generalize (greedy width max s).rest = rest at stuck
  cases front width max rest with
  | short eq few why => simp [eq] at stuck
  | whole header small there =>
    rw [greedy_whole pos header small there] at stuck
    simp [Cut.after] at stuck
  | oversized header big =>
    have same : (rest ++ t).take width = rest.take width := List.take_append_of_le_length header
    have longer : rest.length ≤ (rest ++ t).length := by simp
    rw [greedy_oversized (header.trans longer) (same.symm ▸ big)]
    simp [Cut.after]

end Greedy

end ByteKV.Framing
