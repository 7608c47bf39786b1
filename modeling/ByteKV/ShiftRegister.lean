import Mathlib.Data.Nat.Bitwise
import Mathlib.Data.List.Basic
import Mathlib.Tactic.Ring

/-! Registers that take in one byte at a time from a table: the low byte of the
register and the byte pick a word, and the word is combined with the register moved
down by one byte. All that is asked of the table is that its words can be told apart
by their top bytes; then a register of `width` bytes sees every change of up to `width`
bytes that lie next to each other. -/
namespace ByteKV.ShiftRegister

variable (tab : UInt8 → Nat)

def index (crc : Nat) (byte : UInt8) : UInt8 := UInt8.ofNat crc ^^^ byte

def step (crc : Nat) (byte : UInt8) : Nat := tab (index crc byte) ^^^ crc >>> 8

def run (crc : Nat) (s : List UInt8) : Nat := s.foldl (step tab) crc

def picks : Nat → List UInt8 → List UInt8
  | _, [] => []
  | crc, byte :: s => index crc byte :: picks (step tab crc byte) s

@[simp] theorem run_cons (crc : Nat) (byte : UInt8) (s : List UInt8) :
    run tab crc (byte :: s) = run tab (step tab crc byte) s := rfl

theorem run_append (crc : Nat) (s t : List UInt8) :
    run tab crc (s ++ t) = run tab (run tab crc s) t := by
  simp [run]

theorem picks_injective {crc : Nat} {s t : List UInt8} (h : picks tab crc s = picks tab crc t) :
    s = t := by
  induction s generalizing crc t with
  | nil =>
    cases t with
    | nil => rfl
    | cons _ _ => simp [picks] at h
  | cons b s ih =>
    cases t with
    | nil => simp [picks] at h
    | cons b' t =>
      obtain ⟨first, rest⟩ := List.cons.inj h
      obtain rfl : b = b' := (UInt8.xor_right_inj _).mp first
      rw [ih rest]

/-- Words of `width` bytes, each with a top byte of its own. -/
structure TopDistinct (width : Nat) : Prop where
  pos : 0 < width
  lt : ∀ i, tab i < 2 ^ (8 * width)
  top : ∀ i j, tab i >>> (8 * (width - 1)) = tab j >>> (8 * (width - 1)) → i = j

variable {tab} {width : Nat} (distinct : TopDistinct tab width)
include distinct

theorem step_lt {crc : Nat} (h : crc < 2 ^ (8 * width)) (byte : UInt8) :
    step tab crc byte < 2 ^ (8 * width) :=
  Nat.xor_lt_two_pow (distinct.lt _) ((Nat.shiftRight_le _ _).trans_lt h)

theorem run_lt {crc : Nat} (h : crc < 2 ^ (8 * width)) (s : List UInt8) :
    run tab crc s < 2 ^ (8 * width) := by
  induction s generalizing crc with
  | nil => exact h
  | cons byte s ih => exact ih (step_lt distinct h byte)

/-- Agreement of all bytes from the `k`th on goes back through a step: the same word was
picked, and before the step all bytes from the next one on agreed. -/
theorem step_back {crc crc' : Nat} (h : crc < 2 ^ (8 * width)) (h' : crc' < 2 ^ (8 * width))
    {byte byte' : UInt8} {k : Nat} (low : k < width)
    (agree : step tab crc byte >>> (8 * k) = step tab crc' byte' >>> (8 * k)) :
    index crc byte = index crc' byte' ∧ crc >>> (8 * (k + 1)) = crc' >>> (8 * (k + 1)) := by
  have top (c : Nat) (b : UInt8) (hc : c < 2 ^ (8 * width)) :
      step tab c b >>> (8 * (width - 1)) = tab (index c b) >>> (8 * (width - 1)) := by
    have all : 8 + 8 * (width - 1) = 8 * width := by
      have := distinct.pos
      omega
    rw [step, Nat.shiftRight_xor_distrib, ← Nat.shiftRight_add, all,
      Nat.shiftRight_eq_zero _ _ hc, Nat.xor_zero]
  have same : index crc byte = index crc' byte' := by
    refine distinct.top _ _ ?_
    have up : 8 * (width - 1) = 8 * k + 8 * (width - 1 - k) := by omega
    rw [← top crc byte h, ← top crc' byte' h', up, Nat.shiftRight_add, Nat.shiftRight_add, agree]
  refine ⟨same, ?_⟩
  have next : 8 * (k + 1) = 8 + 8 * k := by ring
  rw [step, step, same, Nat.shiftRight_xor_distrib, Nat.shiftRight_xor_distrib,
    ← Nat.shiftRight_add, ← Nat.shiftRight_add] at agree
  rw [next]
  exact Nat.xor_right_injective agree

theorem run_back {crc crc' : Nat} (h : crc < 2 ^ (8 * width)) (h' : crc' < 2 ^ (8 * width))
    {s t : List UInt8} {k : Nat} (len : s.length = t.length) (short : k + s.length ≤ width)
    (agree : run tab crc s >>> (8 * k) = run tab crc' t >>> (8 * k)) :
    picks tab crc s = picks tab crc' t ∧
      crc >>> (8 * (k + s.length)) = crc' >>> (8 * (k + s.length)) := by
  induction s generalizing crc crc' t with
  | nil =>
    obtain rfl := List.length_eq_zero_iff.mp len.symm
    exact ⟨rfl, agree⟩
  | cons byte s ih =>
    cases t with
    | nil => simp at len
    | cons byte' t =>
      simp only [List.length_cons] at short len ⊢
      obtain ⟨rest, before⟩ := ih (step_lt distinct h byte) (step_lt distinct h' byte')
        (by omega) (by omega) agree
      obtain ⟨first, before⟩ := step_back distinct h h' (by omega) before
      exact ⟨by rw [picks, picks, first, rest], before⟩

theorem run_injective {crc : Nat} (h : crc < 2 ^ (8 * width)) {s t : List UInt8}
    (len : s.length = t.length) (short : s.length ≤ width) (same : run tab crc s = run tab crc t) :
    s = t :=
  picks_injective tab (run_back distinct h h (k := 0) len (by omega) (by rw [same])).1

theorem run_state_injective {crc crc' : Nat} (h : crc < 2 ^ (8 * width))
    (h' : crc' < 2 ^ (8 * width))
    {s : List UInt8} (same : run tab crc s = run tab crc' s) : crc = crc' := by
  induction s generalizing crc crc' with
  | nil => exact same
  | cons byte s ih =>
    have after := ih (step_lt distinct h byte) (step_lt distinct h' byte) same
    obtain ⟨picked, high⟩ := step_back distinct h h' (k := 0) distinct.pos (by rw [after])
    have low : crc % 256 = crc' % 256 := by
      have bytes := congrArg UInt8.toNat ((UInt8.xor_left_inj _).mp picked)
      simpa using bytes
    simp only [Nat.shiftRight_eq_div_pow] at high
    omega

/-- A change of at most `width` bytes changes the outcome, whatever stands around it. -/
theorem run_burst {crc : Nat} (h : crc < 2 ^ (8 * width)) (front back : List UInt8)
    {s t : List UInt8} (len : s.length = t.length) (short : s.length ≤ width) (ne : s ≠ t) :
    run tab crc (front ++ (s ++ back)) ≠ run tab crc (front ++ (t ++ back)) := by
  intro same
  simp only [run_append] at same
  have start := run_lt distinct h front
  have middle := run_state_injective distinct (run_lt distinct start s) (run_lt distinct start t) same
  exact ne (run_injective distinct start len short middle)

end ByteKV.ShiftRegister
