import Mathlib.Data.List.Basic

/-! Listings: one line an item, with the number of the line, a separator, the item and the end
of the line. Where the separator occurs in no number and in no item, a listing says which
items it lists, although items may hold ends of lines. -/
namespace ByteKV.Listing

variable {α : Type} (number : ℕ → List α) (sep stop : α)

def line (n : ℕ) (item : List α) : List α := number n ++ sep :: (item ++ [stop])

def listing : (n : ℕ) → List (List α) → List α
  | _, [] => []
  | n, item :: items => line number sep stop n item ++ listing (n + 1) items

theorem listing_append (n : ℕ) (items later : List (List α)) :
    listing number sep stop n (items ++ later) =
      listing number sep stop n items ++ listing number sep stop (n + items.length) later := by
  induction items generalizing n with
  | nil => rfl
  | cons item items ih =>
    rw [List.cons_append, listing, listing, ih, List.append_assoc, List.length_cons,
      Nat.add_assoc, Nat.add_comm 1]

theorem prefix_before {a b y : List α} {sep : α} (ha : sep ∉ a) (pre : a <+: b ++ sep :: y) :
    a <+: b := by
  obtain ⟨t, ht⟩ := pre
  rcases List.append_eq_append_iff.mp ht with ⟨c, rfl, -⟩ | ⟨c, rfl, hc⟩
  · exact List.prefix_append a c
  · cases c with
    | nil => simp
    | cons d c =>
      obtain ⟨rfl, -⟩ := List.cons.inj hc
      simp at ha

theorem prefix_sep {a b x y : List α} {sep : α} (ha : sep ∉ a) (hb : sep ∉ b)
    (pre : a ++ sep :: x <+: b ++ sep :: y) : a = b ∧ x <+: y := by
  obtain ⟨c, rfl⟩ := prefix_before ha ((List.prefix_append a _).trans pre)
  rw [List.append_assoc, List.prefix_append_right_inj] at pre
  cases c with
  | nil => exact ⟨(List.append_nil a).symm, (List.cons_prefix_cons.mp pre).2⟩
  | cons d c =>
    obtain ⟨rfl, -⟩ := List.cons_prefix_cons.mp pre
    simp at hb

variable {number sep stop}

theorem listing_cons (n : ℕ) (item : List α) (items : List (List α)) :
    listing number sep stop n (item :: items) =
      number n ++ sep :: (item ++ stop :: listing number sep stop (n + 1) items) := by
  simp [listing, line]

theorem listing_inside (n : ℕ) (front back : List (List α)) (p later : List α) :
    listing number sep stop n (front ++ [p]) <+:
      listing number sep stop n (front ++ (p ++ stop :: later) :: back) := by
  simp only [listing_append, List.prefix_append_right_inj, listing_cons, List.append_assoc,
    List.cons_append, List.cons_prefix_cons, true_and]
  exact List.nil_prefix

section Free
variable (numbers : ∀ n, sep ∉ number n ∧ stop ∉ number n)
include numbers

theorem prefix_item {n : ℕ} {p k : List α} {ks : List (List α)} (hp : sep ∉ p) (hsep : sep ≠ stop)
    (pre : p ++ [stop] <+: k ++ stop :: listing number sep stop n ks) :
    p = k ∨ ∃ later, k = p ++ stop :: later := by
  obtain ⟨t, ht⟩ := pre
  rw [List.append_assoc, List.singleton_append] at ht
  rcases List.append_eq_append_iff.mp ht with ⟨c, rfl, hc⟩ | ⟨c, rfl, hc⟩
  · cases c with
    | nil => exact Or.inl (List.append_nil p).symm
    | cons d c =>
      obtain ⟨rfl, -⟩ := List.cons.inj hc
      exact Or.inr ⟨c, rfl⟩
  · cases c with
    | nil => exact Or.inl (List.append_nil k)
    | cons d c =>
      -- The item would go on behind the line, with no separator before its own end.
      obtain ⟨rfl, rest⟩ := List.cons.inj hc
      have free : sep ∉ c ++ [stop] := by
        simp only [List.mem_append, List.mem_cons, List.not_mem_nil, or_false, not_or] at hp ⊢
        exact ⟨hp.2.2, hsep⟩
      cases ks with
      | nil => simp [listing] at rest
      | cons k' ks =>
        rw [listing_cons] at rest
        have inside : c ++ [stop] <+: number n := prefix_before free ⟨t, by
          rw [List.append_assoc, List.singleton_append]
          exact rest.symm⟩
        exact absurd (inside.subset (List.mem_append_right _ (List.mem_singleton_self stop)))
          (numbers n).2

/-- A listing that is the front of another one lists the first of its items, but for the last,
which may be the front of an item that goes on behind an end of line. -/
theorem listing_prefix_iff {n : ℕ} {ls ks : List (List α)} (hsep : sep ≠ stop)
    (hls : ∀ item ∈ ls, sep ∉ item) (hks : ∀ item ∈ ks, sep ∉ item) :
    listing number sep stop n ls <+: listing number sep stop n ks ↔ ls <+: ks ∨
      ∃ front p later back, ls = front ++ [p] ∧ ks = front ++ (p ++ stop :: later) :: back := by
  constructor
  · intro pre
    induction ls generalizing n ks with
    | nil => exact Or.inl List.nil_prefix
    | cons p ls ih =>
      cases ks with
      | nil =>
        rw [listing_cons] at pre
        simp [listing] at pre
      | cons k ks =>
        have hp := hls p List.mem_cons_self
        have hk := hks k List.mem_cons_self
        rw [listing_cons, listing_cons, List.prefix_append_right_inj, List.cons_prefix_cons] at pre
        cases ls with
        | nil =>
          rcases prefix_item numbers hp hsep pre.2 with rfl | ⟨later, rfl⟩
          · exact Or.inl (by simp)
          · exact Or.inr ⟨[], p, later, ks, rfl, rfl⟩
        | cons p' ls =>
          have hmark := (numbers (n + 1)).1
          have free {item : List α} (h : sep ∉ item) : sep ∉ item ++ stop :: number (n + 1) := by
            simp only [List.mem_append, List.mem_cons, not_or]
            exact ⟨h, hsep, hmark⟩
          have regroup (item x : List α) : item ++ stop :: (number (n + 1) ++ sep :: x) =
              (item ++ stop :: number (n + 1)) ++ sep :: x := by
            rw [List.append_assoc, List.cons_append]
          have next := pre.2
          rw [listing_cons (n + 1) p' ls, regroup] at next
          cases ks with
          | nil =>
            have back := next.subset (List.mem_append_right _ List.mem_cons_self)
            simp [listing, hk, hsep] at back
          | cons k' ks =>
            rw [listing_cons (n + 1) k' ks, regroup] at next
            obtain rfl := List.append_cancel_right (prefix_sep (free hp) (free hk) next).1
            have rest := pre.2
            rw [List.prefix_append_right_inj, List.cons_prefix_cons] at rest
            rcases ih (fun item h => hls item (List.mem_cons_of_mem _ h))
              (fun item h => hks item (List.mem_cons_of_mem _ h)) rest.2 with
              whole | ⟨front, q, later, back, eq, eq'⟩
            · exact Or.inl (List.cons_prefix_cons.mpr ⟨rfl, whole⟩)
            · exact Or.inr ⟨p :: front, q, later, back, by rw [eq]; rfl, by rw [eq']; rfl⟩
  · rintro (⟨back, rfl⟩ | ⟨front, p, later, back, rfl, rfl⟩)
    · rw [listing_append]
      exact List.prefix_append _ _
    · exact listing_inside n front back p later

end Free

end ByteKV.Listing
