import Mathlib.Data.List.Infix
import Mathlib.Data.Set.Basic

/-! Concatenations of words from a prefix-free set, over any alphabet. A cut leaves
whole words and at most one torn word, and a torn word in front of anything is
not a sequence of words any more. -/
namespace ByteKV.PrefixCode

variable {α : Type*}

def PrefixFree (C : Set (List α)) : Prop := ∀ a ∈ C, ∀ b ∈ C, a <+: b → a = b

def Torn (C : Set (List α)) (p : List α) : Prop := ∃ w ∈ C, ∃ m < w.length, p = w.take m

def wholeBefore : List (List α) → Nat → Nat
  | [], _ => 0
  | w :: ws, n => if w.length ≤ n then wholeBefore ws (n - w.length) + 1 else 0

def tornBefore : List (List α) → Nat → List α
  | [], _ => []
  | w :: ws, n => if w.length ≤ n then tornBefore ws (n - w.length) else w.take n

theorem take_flatten (ws : List (List α)) (n : Nat) :
    ws.flatten.take n = (ws.take (wholeBefore ws n)).flatten ++ tornBefore ws n := by
  induction ws generalizing n with
  | nil => simp [tornBefore]
  | cons w ws ih =>
    rw [List.flatten_cons, List.take_append, wholeBefore, tornBefore]
    by_cases whole : w.length ≤ n
    · rw [if_pos whole, if_pos whole, List.take_of_length_le whole, ih, List.take_succ_cons,
        List.flatten_cons, List.append_assoc]
    · have none_left : n - w.length = 0 := by omega
      rw [if_neg whole, if_neg whole, none_left]
      simp

theorem tornBefore_torn {C : Set (List α)} {ws : List (List α)} (hws : ∀ w ∈ ws, w ∈ C)
    (n : Nat) : tornBefore ws n = [] ∨ Torn C (tornBefore ws n) := by
  induction ws generalizing n with
  | nil => exact Or.inl rfl
  | cons w ws ih =>
    rw [tornBefore]
    by_cases whole : w.length ≤ n
    · rw [if_pos whole]
      exact ih (fun v hv => hws v (List.mem_cons_of_mem _ hv)) _
    · rw [if_neg whole]
      exact Or.inr ⟨w, hws w List.mem_cons_self, n, by omega, rfl⟩

theorem wholeBefore_le (ws : List (List α)) (n : Nat) : wholeBefore ws n ≤ ws.length := by
  induction ws generalizing n with
  | nil => exact Nat.zero_le _
  | cons w ws ih =>
    rw [wholeBefore, List.length_cons]
    split
    · exact Nat.succ_le_succ (ih _)
    · exact Nat.zero_le _

theorem wholeBefore_append (vs ws : List (List α)) (n : Nat) :
    wholeBefore (vs ++ ws) (vs.flatten.length + n) = vs.length + wholeBefore ws n := by
  induction vs with
  | nil => simp
  | cons v vs ih =>
    have left : (v :: vs).flatten.length + n - v.length = vs.flatten.length + n := by
      rw [List.flatten_cons, List.length_append]
      omega
    have whole : v.length ≤ (v :: vs).flatten.length + n := by
      rw [List.flatten_cons, List.length_append]
      omega
    rw [List.cons_append, wholeBefore, if_pos whole, left, ih, List.length_cons]
    omega

theorem wholeBefore_eq_zero {ws : List (List α)} {n : Nat}
    (short : ∀ w ∈ ws.head?, n < w.length) : wholeBefore ws n = 0 := by
  cases ws with
  | nil => rfl
  | cons w ws => exact if_neg (not_le.mpr (short w rfl))

theorem le_wholeBefore_iff {ws : List (List α)} {n k : Nat} (hk : k ≤ ws.length) :
    k ≤ wholeBefore ws n ↔ (ws.take k).flatten.length ≤ n := by
  induction ws generalizing n k with
  | nil =>
    obtain rfl : k = 0 := by simpa using hk
    simp
  | cons w ws ih =>
    cases k with
    | zero => simp
    | succ k =>
      have hk' : k ≤ ws.length := by simpa using hk
      rw [wholeBefore, List.take_succ_cons, List.flatten_cons, List.length_append]
      by_cases whole : w.length ≤ n
      · rw [if_pos whole, Nat.add_le_add_iff_right, ih hk']
        omega
      · rw [if_neg whole]
        omega

theorem append_left_cancel_of_prefixFree {C : Set (List α)} (free : PrefixFree C)
    {a b x y : List α} (ha : a ∈ C) (hb : b ∈ C) (eq : a ++ x = b ++ y) : a = b ∧ x = y := by
  have same : a = b := by
    have pa : a <+: b ++ y := eq ▸ List.prefix_append a x
    rcases List.prefix_or_prefix_of_prefix pa (List.prefix_append b y) with h | h
    · exact free a ha b hb h
    · exact (free b hb a ha h).symm
  exact ⟨same, List.append_cancel_left (same ▸ eq)⟩

/-- Words with a torn word behind them do not parse as words again. -/
theorem flatten_append_torn_ne {C : Set (List α)} (free : PrefixFree C)
    {ws vs : List (List α)} (hws : ∀ w ∈ ws, w ∈ C) (hvs : ∀ v ∈ vs, v ∈ C) {p : List α}
    (torn : Torn C p) (ne : p ≠ []) : ws.flatten ++ p ≠ vs.flatten := by
  obtain ⟨w, hw, m, short, rfl⟩ := torn
  induction ws generalizing vs with
  | nil =>
    intro eq
    rcases vs with _ | ⟨v, vs⟩
    · exact ne (by simpa using eq)
    · -- The first word of the other side would be a prefix of the torn one.
      have pre : v <+: w := by
        have inTorn : v <+: w.take m := ⟨vs.flatten, by simpa using eq.symm⟩
        exact inTorn.trans (List.take_prefix m w)
      have same := free v (hvs v List.mem_cons_self) w hw pre
      have len := congrArg List.length eq
      simp only [List.flatten_nil, List.nil_append, List.length_take, List.flatten_cons,
        List.length_append, same] at len
      omega
  | cons a ws ih =>
    intro eq
    rcases vs with _ | ⟨v, vs⟩
    · have empty : w.take m = [] := by simp_all
      exact ne empty
    · rw [List.flatten_cons, List.flatten_cons, List.append_assoc] at eq
      obtain ⟨-, rest⟩ := append_left_cancel_of_prefixFree free (hws a List.mem_cons_self)
        (hvs v List.mem_cons_self) eq
      exact ih (fun u hu => hws u (List.mem_cons_of_mem _ hu))
        (fun u hu => hvs u (List.mem_cons_of_mem _ hu)) rest

theorem flatten_injective {C : Set (List α)} (free : PrefixFree C) (nonempty : [] ∉ C)
    {ws vs : List (List α)} (hws : ∀ w ∈ ws, w ∈ C) (hvs : ∀ v ∈ vs, v ∈ C)
    (eq : ws.flatten = vs.flatten) : ws = vs := by
  induction ws generalizing vs with
  | nil =>
    rcases vs with _ | ⟨v, vs⟩
    · rfl
    · have empty : v = [] := (List.append_eq_nil_iff.mp eq.symm).1
      exact absurd (empty ▸ hvs v List.mem_cons_self) nonempty
  | cons a ws ih =>
    rcases vs with _ | ⟨v, vs⟩
    · have empty : a = [] := (List.append_eq_nil_iff.mp eq).1
      exact absurd (empty ▸ hws a List.mem_cons_self) nonempty
    · rw [List.flatten_cons, List.flatten_cons] at eq
      obtain ⟨rfl, rest⟩ := append_left_cancel_of_prefixFree free (hws a List.mem_cons_self)
        (hvs v List.mem_cons_self) eq
      rw [ih (fun u hu => hws u (List.mem_cons_of_mem _ hu))
        (fun u hu => hvs u (List.mem_cons_of_mem _ hu)) rest]

end ByteKV.PrefixCode
