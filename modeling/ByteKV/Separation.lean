import Mathlib

/-! Assertions about parts of a heap, over any addresses and any contents. They form a
commutative quantale: the order is entailment, the product splits the heap. The address zero
is the null pointer, and nothing stands there. -/
namespace ByteKV.Separation

abbrev Heap (A V : Type) := Finmap fun _ : A => V

/-- A property of the part of a heap that it is about. -/
def Assn (A V : Type) := Set (Heap A V)

variable {A V : Type}

namespace Assn

instance : CompleteLattice (Assn A V) := inferInstanceAs (CompleteLattice (Set (Heap A V)))

instance : Membership (Heap A V) (Assn A V) := inferInstanceAs (Membership (Heap A V) (Set (Heap A V)))

@[ext] theorem ext {P Q : Assn A V} (same : ∀ h, h ∈ P ↔ h ∈ Q) : P = Q := Set.ext same

theorem mem_iSup {ι : Sort*} {P : ι → Assn A V} {h : Heap A V} : h ∈ ⨆ i, P i ↔ ∃ i, h ∈ P i :=
  Set.mem_iUnion

theorem mem_top (h : Heap A V) : h ∈ (⊤ : Assn A V) := Set.mem_univ h

instance : One (Assn A V) where
  one := ({∅} : Set (Heap A V))

theorem mem_one {h : Heap A V} : h ∈ (1 : Assn A V) ↔ h = ∅ := Set.mem_singleton_iff

/-- A statement that owns nothing. -/
def fact (p : Prop) : Assn A V := ⨆ _ : p, 1

@[simp] theorem fact_of {p : Prop} (holds : p) : (fact p : Assn A V) = 1 := by
  have : Nonempty p := ⟨holds⟩
  exact iSup_const

variable [DecidableEq A]

instance : Mul (Assn A V) where
  mul P Q := {h : Heap A V | ∃ h₁ h₂ : Heap A V, h₁.Disjoint h₂ ∧ h = h₁ ∪ h₂ ∧ h₁ ∈ P ∧ h₂ ∈ Q}

theorem mem_mul {P Q : Assn A V} {h : Heap A V} :
    h ∈ P * Q ↔ ∃ h₁ h₂ : Heap A V, h₁.Disjoint h₂ ∧ h = h₁ ∪ h₂ ∧ h₁ ∈ P ∧ h₂ ∈ Q := Iff.rfl

private theorem mul_comm_le (P Q : Assn A V) : P * Q ≤ Q * P := by
  rintro h ⟨h₁, h₂, apart, rfl, p, q⟩
  exact ⟨h₂, h₁, apart.symm, Finmap.union_comm_of_disjoint apart, q, p⟩

instance : CommMonoid (Assn A V) where
  mul_assoc P Q R := by
    ext h
    constructor
    · rintro ⟨_, h₃, apart, rfl, ⟨h₁, h₂, apart₁, rfl, p, q⟩, r⟩
      obtain ⟨apart₂, apart₃⟩ := (Finmap.disjoint_union_left h₁ h₂ h₃).mp apart
      exact ⟨h₁, h₂ ∪ h₃, (Finmap.disjoint_union_right h₁ h₂ h₃).mpr ⟨apart₁, apart₂⟩,
        Finmap.union_assoc, p, h₂, h₃, apart₃, rfl, q, r⟩
    · rintro ⟨h₁, _, apart, rfl, p, h₂, h₃, apart₃, rfl, q, r⟩
      obtain ⟨apart₁, apart₂⟩ := (Finmap.disjoint_union_right h₁ h₂ h₃).mp apart
      exact ⟨h₁ ∪ h₂, h₃, (Finmap.disjoint_union_left h₁ h₂ h₃).mpr ⟨apart₂, apart₃⟩,
        Finmap.union_assoc.symm, ⟨h₁, h₂, apart₁, rfl, p, q⟩, r⟩
  one_mul P := by
    ext h
    constructor
    · rintro ⟨_, h₂, -, rfl, rfl, p⟩
      rwa [Finmap.empty_union]
    · exact fun p => ⟨∅, h, Finmap.disjoint_empty h, Finmap.empty_union.symm, mem_one.mpr rfl, p⟩
  mul_one P := by
    ext h
    constructor
    · rintro ⟨h₁, _, -, rfl, p, rfl⟩
      rwa [Finmap.union_empty]
    · exact fun p =>
        ⟨h, ∅, (Finmap.disjoint_empty h).symm, Finmap.union_empty.symm, p, mem_one.mpr rfl⟩
  mul_comm P Q := le_antisymm (mul_comm_le P Q) (mul_comm_le Q P)

instance : IsQuantale (Assn A V) where
  mul_sSup_distrib P s := by
    ext h
    simp only [sSup_eq_iSup, mem_iSup, mem_mul]
    constructor
    · rintro ⟨h₁, h₂, apart, same, p, Q, mem, q⟩
      exact ⟨Q, mem, h₁, h₂, apart, same, p, q⟩
    · rintro ⟨Q, mem, h₁, h₂, apart, same, p, q⟩
      exact ⟨h₁, h₂, apart, same, p, Q, mem, q⟩
  sSup_mul_distrib s P := by
    ext h
    simp only [sSup_eq_iSup, mem_iSup, mem_mul]
    constructor
    · rintro ⟨h₁, h₂, apart, same, ⟨Q, mem, q⟩, p⟩
      exact ⟨Q, mem, h₁, h₂, apart, same, q, p⟩
    · rintro ⟨Q, mem, h₁, h₂, apart, same, q, p⟩
      exact ⟨h₁, h₂, apart, same, ⟨Q, mem, q⟩, p⟩

theorem mem_fact_mul {p : Prop} {P : Assn A V} {h : Heap A V} : h ∈ fact p * P ↔ p ∧ h ∈ P := by
  constructor
  · rintro ⟨h₁, h₂, -, rfl, stated, held⟩
    obtain ⟨holds, owned⟩ := mem_iSup.mp stated
    obtain rfl := mem_one.mp owned
    rw [Finmap.empty_union]
    exact ⟨holds, held⟩
  · rintro ⟨holds, held⟩
    rwa [fact_of holds, one_mul]

theorem fact_mul_le {p : Prop} {P Q : Assn A V} (le : p → P ≤ Q) : fact p * P ≤ Q :=
  fun _ held => le (mem_fact_mul.mp held).1 (mem_fact_mul.mp held).2

theorem le_fact_mul {p : Prop} {P Q : Assn A V} (holds : p) (le : P ≤ Q) : P ≤ fact p * Q :=
  fun _ held => mem_fact_mul.mpr ⟨holds, le held⟩

/-- What stands somewhere in a heap. -/
def within (P : Assn A V) : Assn A V := P * ⊤

theorem mem_within {P : Assn A V} {h : Heap A V} :
    h ∈ within P ↔ ∃ h₁ h₂ : Heap A V, h₁.Disjoint h₂ ∧ h = h₁ ∪ h₂ ∧ h₁ ∈ P := by
  simp only [within, mem_mul, mem_top, and_true]

theorem within_left {P Q : Assn A V} : within (P * Q) ≤ within P := by
  rw [within, within, mul_assoc]
  exact mul_le_mul_right le_top P

theorem within_right {P Q : Assn A V} : within (P * Q) ≤ within Q := by
  rw [mul_comm]
  exact within_left

theorem within_fact {p : Prop} {P : Assn A V} {h : Heap A V} (held : h ∈ within (fact p * P)) :
    p ∧ h ∈ within P := by
  rw [within, mul_assoc] at held
  exact mem_fact_mul.mp held

theorem within_iSup {ι : Type*} {P : ι → Assn A V} {h : Heap A V} :
    h ∈ within (⨆ i, P i) ↔ ∃ i, h ∈ within (P i) := by
  rw [within, Quantale.iSup_mul_distrib, mem_iSup]
  rfl

def pts [Zero A] (a : A) (v : V) : Assn A V := {h : Heap A V | a ≠ 0 ∧ h = Finmap.singleton a v}

theorem within_pts [Zero A] {a : A} {v : V} {h : Heap A V} (held : h ∈ within (pts a v)) :
    a ≠ 0 ∧ h.lookup a = some v := by
  obtain ⟨_, h₂, -, rfl, nonzero, rfl⟩ := mem_within.mp held
  have here : a ∈ (Finmap.singleton a v : Heap A V) := (Finmap.mem_singleton a a v).mpr rfl
  exact ⟨nonzero, (Finmap.lookup_union_left here).trans Finmap.lookup_singleton_eq⟩

def Sized (n : Nat) (P : Assn A V) : Prop := ∀ h ∈ P, h.keys.card = n

theorem Sized.mul {m n : Nat} {P Q : Assn A V} (left : Sized m P) (right : Sized n Q) :
    Sized (m + n) (P * Q) := by
  rintro _ ⟨h₁, h₂, apart, rfl, p, q⟩
  have keys_apart : Disjoint h₁.keys h₂.keys := Finset.disjoint_left.mpr fun a mem mem' =>
    apart a (Finmap.mem_keys.mp mem) (Finmap.mem_keys.mp mem')
  rw [Finmap.keys_union, Finset.card_union_of_disjoint keys_apart, left h₁ p, right h₂ q]

omit [DecidableEq A] in
theorem Sized.iSup {ι : Sort*} {n : Nat} {P : ι → Assn A V} (each : ∀ i, Sized n (P i)) :
    Sized n (⨆ i, P i) := by
  intro h held
  obtain ⟨i, held⟩ := mem_iSup.mp held
  exact each i h held

omit [DecidableEq A] in
theorem Sized.one : Sized 0 (1 : Assn A V) := by
  rintro _ rfl
  rw [Finmap.keys_empty, Finset.card_empty]

omit [DecidableEq A] in
theorem Sized.fact (p : Prop) : Sized 0 (Assn.fact p : Assn A V) := .iSup fun _ => .one

theorem Sized.fact_mul {n : Nat} {p : Prop} {P : Assn A V} (given : p → Sized n P) :
    Sized n (Assn.fact p * P) := fun h held =>
  given (mem_fact_mul.mp held).1 h (mem_fact_mul.mp held).2

omit [DecidableEq A] in
theorem Sized.pts [Zero A] (a : A) (v : V) : Sized 1 (Assn.pts a v) := by
  rintro _ ⟨-, rfl⟩
  rw [Finmap.keys_singleton, Finset.card_singleton]

end Assn

end ByteKV.Separation
