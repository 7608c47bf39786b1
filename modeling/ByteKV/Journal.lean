import ByteKV.Emission
import Mathlib.Data.List.Basic

/-! A journal whose front is flushed from time to time. A power loss takes away some of the
items behind that front, the last ones first. -/
namespace ByteKV.Journal
open Emission

variable {R : Type*}

/-- The first `durable` items are safe. -/
structure State (R : Type*) where
  items : List R
  durable : Nat
  bound : durable ≤ items.length

inductive Label (R : Type*)
  | append (r : R)
  | flush
  | powerLoss

namespace State

def empty : State R := ⟨[], 0, Nat.le_refl 0⟩

def append (s : State R) (r : R) : State R where
  items := s.items ++ [r]
  durable := s.durable
  bound := by
    rw [List.length_append]
    exact Nat.le_add_right_of_le s.bound

def flush (s : State R) : State R := ⟨s.items, s.items.length, Nat.le_refl _⟩

def cut (s : State R) (n : Nat) (le : s.durable ≤ n) : State R where
  items := s.items.take n
  durable := s.durable
  bound := by
    rw [List.length_take]
    exact Nat.le_min.mpr ⟨le, s.bound⟩

/-- What no power loss takes away. -/
def safe (s : State R) : List R := s.items.take s.durable

def pending (s : State R) : List R := s.items.drop s.durable

theorem safe_append_pending (s : State R) : s.safe ++ s.pending = s.items :=
  List.take_append_drop _ _

theorem append_safe (s : State R) (r : R) : (s.append r).safe = s.safe :=
  List.take_append_of_le_length s.bound

theorem append_pending (s : State R) (r : R) : (s.append r).pending = s.pending ++ [r] :=
  List.drop_append_of_le_length s.bound

theorem flush_safe (s : State R) : s.flush.safe = s.items := List.take_length

theorem flush_pending (s : State R) : s.flush.pending = [] := List.drop_length

theorem cut_safe (s : State R) (n : Nat) (le : s.durable ≤ n) : (s.cut n le).safe = s.safe := by
  rw [safe, cut, List.take_take, Nat.min_eq_left le, safe]

theorem cut_pending (s : State R) (n : Nat) (le : s.durable ≤ n) :
    (s.cut n le).pending = s.pending.take (n - s.durable) :=
  List.drop_take

theorem cut_all (s : State R) (n : Nat) (le : s.durable ≤ n) (all : s.items.length ≤ n) :
    s.cut n le = s := by
  simp only [cut, List.take_of_length_le all]

/-- A power loss that takes the new item away might as well have come before it. -/
theorem append_cut (s : State R) (r : R) {n : Nat} (le : s.durable ≤ n)
    (short : n ≤ s.items.length) : (s.append r).cut n le = s.cut n le := by
  simp only [cut, append, List.take_append_of_le_length short]

end State

inductive Step : State R → Label R → State R → Prop
  | append (s : State R) (r : R) : Step s (.append r) (s.append r)
  | flush (s : State R) : Step s .flush s.flush
  | powerLoss (s : State R) (n : Nat) (le : s.durable ≤ n) : Step s .powerLoss (s.cut n le)

def appended : List (Label R) → List R
  | [] => []
  | .append r :: ls => r :: appended ls
  | .flush :: ls | .powerLoss :: ls => appended ls

/-- Those of them that a flush came after, before any power loss did. -/
def secured (pending : List R) : List (Label R) → List R
  | [] => []
  | .append r :: ls => secured (pending ++ [r]) ls
  | .flush :: ls => pending ++ secured [] ls
  | .powerLoss :: ls => secured [] ls

theorem secured_mono {p q : List R} (sub : p.Sublist q) (ls : List (Label R)) :
    (secured p ls).Sublist (secured q ls) := by
  induction ls generalizing p q with
  | nil => exact List.Sublist.refl _
  | cons l ls ih =>
    cases l with
    | append r => exact ih (sub.append_right [r])
    | flush => exact sub.append_right _
    | powerLoss => exact List.Sublist.refl _

theorem secured_append (pending : List R) (rs : List R) (power : Bool) (ls : List (Label R)) :
    (secured [] ls).Sublist
      (secured pending (rs.map .append ++ (if power then [.powerLoss] else []) ++ ls)) := by
  induction rs generalizing pending with
  | nil =>
    cases power with
    | true => exact List.Sublist.refl _
    | false => exact secured_mono (List.nil_sublist _) ls
  | cons r rs ih => exact ih (pending ++ [r])

section Path
variable {s s' : State R} {ls : List (Label R)}

theorem path_appended (path : Path Step s ls s') : s'.items.Sublist (s.items ++ appended ls) := by
  induction path with
  | nil s => exact List.sublist_append_left _ _
  | cons first rest ih =>
    cases first with
    | append r => simpa [State.append, appended] using ih
    | flush => exact ih
    | powerLoss n le => exact ih.trans ((List.take_sublist n _).append_right _)

theorem path_secured {pending : List R} (path : Path Step s ls s')
    (sub : pending.Sublist s.pending) : (s.safe ++ secured pending ls).Sublist s'.safe := by
  induction path generalizing pending with
  | nil s => exact (List.append_nil s.safe).symm ▸ List.Sublist.refl _
  | @cons s l _ ls _ first rest ih =>
    cases first with
    | append r =>
      have longer : (pending ++ [r]).Sublist (s.append r).pending := by
        rw [State.append_pending]
        exact sub.append_right [r]
      have next := ih longer
      rwa [State.append_safe] at next
    | flush =>
      have next := ih (List.nil_sublist _)
      rw [State.flush_safe] at next
      refine List.Sublist.trans ?_ next
      rw [secured, ← List.append_assoc]
      refine List.Sublist.append_right ?_ _
      rw [← s.safe_append_pending]
      exact sub.append_left _
    | powerLoss n le =>
      have next := ih (List.nil_sublist _)
      rwa [State.cut_safe] at next

end Path

end ByteKV.Journal
