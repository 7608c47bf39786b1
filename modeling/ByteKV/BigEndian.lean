import Mathlib.Data.List.Basic
import Mathlib.Tactic.Ring

/-! Fixed-width big-endian naturals over byte lists. The encoder keeps the low
`8 * width` bits of its argument, as a cast to an unsigned field of that width
does; the decoder reads any number of bytes. -/
namespace ByteKV.BigEndian

def encode : (width : Nat) → Nat → List UInt8
  | 0, _ => []
  | width + 1, x => UInt8.ofNat (x / 256 ^ width) :: encode width x

def decode (bytes : List UInt8) : Nat :=
  bytes.foldl (fun acc b => acc * 256 + b.toNat) 0

@[simp] theorem encode_length (width x : Nat) : (encode width x).length = width := by
  induction width with
  | zero => rfl
  | succ width ih => simp [encode, ih]

theorem foldl_encode (width x acc : Nat) :
    (encode width x).foldl (fun acc b => acc * 256 + b.toNat) acc =
      acc * 256 ^ width + x % 256 ^ width := by
  induction width generalizing acc with
  | zero => simp [encode, Nat.mod_one]
  | succ width ih =>
    have digit : (UInt8.ofNat (x / 256 ^ width)).toNat = x / 256 ^ width % 256 := by simp
    have split : x % 256 ^ (width + 1) =
        x % 256 ^ width + 256 ^ width * (x / 256 ^ width % 256) := by
      rw [pow_succ, Nat.mod_mul]
    rw [encode, List.foldl_cons, ih, digit, split]
    ring

theorem decode_encode (width x : Nat) : decode (encode width x) = x % 256 ^ width := by
  simpa [decode] using foldl_encode width x 0

theorem decode_encode_of_lt {width x : Nat} (h : x < 256 ^ width) :
    decode (encode width x) = x := by
  rw [decode_encode, Nat.mod_eq_of_lt h]

theorem foldl_lt (bytes : List UInt8) (acc : Nat) :
    bytes.foldl (fun acc b => acc * 256 + b.toNat) acc < (acc + 1) * 256 ^ bytes.length := by
  induction bytes generalizing acc with
  | nil => simp
  | cons b bytes ih =>
    have digit := b.toNat_lt
    calc
      _ < (acc * 256 + b.toNat + 1) * 256 ^ bytes.length := by simpa using ih (acc * 256 + b.toNat)
      _ ≤ ((acc + 1) * 256) * 256 ^ bytes.length := by gcongr; omega
      _ = _ := by rw [List.length_cons, pow_succ]; ring

theorem decode_lt (bytes : List UInt8) : decode bytes < 256 ^ bytes.length := by
  simpa [decode] using foldl_lt bytes 0

theorem foldl_eq (bytes : List UInt8) (acc : Nat) :
    bytes.foldl (fun acc b => acc * 256 + b.toNat) acc = acc * 256 ^ bytes.length + decode bytes := by
  induction bytes generalizing acc with
  | nil => simp [decode]
  | cons b bytes ih =>
    have first := ih (acc * 256 + b.toNat)
    have alone := ih b.toNat
    rw [decode, List.foldl_cons, List.foldl_cons, first, Nat.zero_mul, Nat.zero_add, alone,
      List.length_cons, pow_succ]
    ring

theorem decode_injective {s t : List UInt8} (len : s.length = t.length)
    (same : decode s = decode t) : s = t := by
  induction s generalizing t with
  | nil => exact (List.length_eq_zero_iff.mp len.symm).symm
  | cons b s ih =>
    cases t with
    | nil => simp at len
    | cons b' t =>
      have tails : s.length = t.length := by simpa using len
      have whole (b : UInt8) (s : List UInt8) :
        decode (b :: s) = b.toNat * 256 ^ s.length + decode s := by
        have := foldl_eq s b.toNat
        simpa [decode] using this
      have lt := decode_lt s
      have lt' := decode_lt t
      rw [whole, whole, ← tails] at same
      rw [← tails] at lt'
      have rest : decode s = decode t := by
        have low := congrArg (· % 256 ^ s.length) same
        simpa only [Nat.mul_add_mod_self_right, Nat.mod_eq_of_lt lt, Nat.mod_eq_of_lt lt'] using low
      have first : b.toNat = b'.toNat := by
        rw [rest, Nat.add_right_cancel_iff] at same
        exact Nat.eq_of_mul_eq_mul_right (Nat.pow_pos (by norm_num)) same
      rw [UInt8.toNat_inj.mp first, ih tails rest]

theorem encode_decode (bytes : List UInt8) : encode bytes.length (decode bytes) = bytes :=
  decode_injective (encode_length _ _) (decode_encode_of_lt (decode_lt bytes))

end ByteKV.BigEndian
