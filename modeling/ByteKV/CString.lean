import Mathlib.Data.List.TakeWhile

/-! Bytes and NUL-terminated strings. A C string is the bytes before the first
NUL; a `char` array is all of its bytes. -/
namespace ByteKV

abbrev Bytes := List UInt8

def ascii (s : String) : Bytes := s.toList.map fun c => UInt8.ofNat c.toNat

/-- The string a pointer to `buf` denotes. -/
def cstr (buf : Bytes) : Bytes := buf.takeWhile (· ≠ 0)

def NulFree (s : Bytes) : Prop := 0 ∉ s

instance (s : Bytes) : Decidable (NulFree s) := inferInstanceAs (Decidable (0 ∉ s))

theorem cstr_nulFree (buf : Bytes) : NulFree (cstr buf) := by
  intro h
  simpa using List.mem_takeWhile_imp h

@[simp] theorem cstr_of_nulFree {s : Bytes} (h : NulFree s) : cstr s = s := by
  rw [cstr, List.takeWhile_eq_self_iff]
  intro b hb
  have : b ≠ 0 := fun h0 => h (h0 ▸ hb)
  simpa using this

theorem cstr_append_nul {s : Bytes} (h : NulFree s) (junk : Bytes) : cstr (s ++ 0 :: junk) = s := by
  have whole := cstr_of_nulFree h
  rw [cstr, List.takeWhile_eq_self_iff] at whole
  rw [cstr, List.takeWhile_append_of_pos whole, List.takeWhile_cons_of_neg (by simp),
    List.append_nil]

theorem exists_cstr_append (buf rest : Bytes) :
    ∃ junk, buf ++ 0 :: rest = cstr buf ++ 0 :: junk := by
  induction buf with
  | nil => exact ⟨rest, rfl⟩
  | cons b buf ih =>
    by_cases nul : b = 0
    · exact ⟨buf ++ 0 :: rest, by simp [cstr, nul]⟩
    · obtain ⟨junk, eq⟩ := ih
      have goesOn : cstr (b :: buf) = b :: cstr buf := List.takeWhile_cons_of_pos (by simpa using nul)
      exact ⟨junk, by rw [goesOn, List.cons_append, List.cons_append, eq]⟩

theorem cstr_length_le (buf : Bytes) : (cstr buf).length ≤ buf.length :=
  (List.takeWhile_prefix _).length_le

/-- `%lld`, `%d` and `%zu` of printf. -/
def decimal (n : Int) : Bytes :=
  (if n < 0 then ascii "-" else []) ++
    (Nat.toDigits 10 n.natAbs).map fun c => UInt8.ofNat c.toNat

end ByteKV
