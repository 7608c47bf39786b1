import ByteKV.HashMap

/-! The whole run of a table iterator: the calls from `ht_iter_create` to the
first NULL. Only the array of buckets matters, so the results hold for every table
of the right shape, whatever its load. -/
namespace ByteKV.HashTable
variable {α : Type}

/-- What `calls` calls of `ht_iter_next` in a row return, and the cursor they leave. -/
def htIterCalls (ht : RawHt α) : (calls : Nat) → HtIter α → List (Option (HtEntry α)) × HtIter α
  | 0, iter => ([], iter)
  | calls + 1, iter =>
      let (entry, iter) := htIterNext ht iter
      let (entries, iter) := htIterCalls ht calls iter
      (entry :: entries, iter)

theorem htIterLoop_enough {ht : RawHt α} (rounds extra : Nat) (iter : HtIter α)
    (low : -1 ≤ iter.index)
    (enough : (if iter.entry = [] then 0 else 1) + (ht.size - (iter.index + 1).toNat) < rounds) :
    htIterLoop ht (rounds + extra) iter = htIterLoop ht rounds iter := by
  induction rounds generalizing iter with
  | zero => omega
  | succ rounds ih =>
    rw [Nat.succ_add, htIterLoop, htIterLoop]
    by_cases idle : iter.entry = []
    · by_cases past : ht.size ≤ (iter.index + 1).toNat
      · simp only [idle, past, and_self, if_true]
      · simp only [idle, past, and_false, if_false, if_true]
        cases ht.chain (iter.index + 1).toNat with
        | cons e next => rfl
        | nil => exact ih _ (by simp; omega) (by simp [idle] at enough ⊢; omega)
    · simp only [idle, false_and, if_false]
      cases hn : iter.nextEntry with
      | cons e next => rfl
      | nil => exact ih _ low (by simp [idle] at enough ⊢; omega)

/-- The index never goes back. It stops at the number of buckets, and short of it
where an entry is returned. -/
theorem htIterLoop_index {ht : RawHt α} (rounds : Nat) (iter : HtIter α)
    (inside : iter.index < ht.size) (low : -1 ≤ iter.index) :
    iter.index ≤ (htIterLoop ht rounds iter).2.index ∧
      (htIterLoop ht rounds iter).2.index ≤ ht.size ∧
      ((htIterLoop ht rounds iter).1.isSome → (htIterLoop ht rounds iter).2.index < ht.size) := by
  induction rounds generalizing iter with
  | zero => exact ⟨le_refl _, by simp only [htIterLoop]; omega, fun h => by simp [htIterLoop] at h⟩
  | succ rounds ih =>
    rw [htIterLoop]
    by_cases idle : iter.entry = []
    · by_cases past : ht.size ≤ (iter.index + 1).toNat
      · simp only [idle, past, and_self, if_true]
        exact ⟨by omega, by omega, fun h => by simp at h⟩
      · have next : iter.index + 1 < ht.size := by omega
        simp only [idle, past, and_false, if_false, if_true]
        cases ht.chain (iter.index + 1).toNat with
        | cons e es => exact ⟨by simp only; omega, by simp only; omega, fun _ => next⟩
        | nil =>
          obtain ⟨mono, rest⟩ :=
            ih { iter with index := iter.index + 1, entry := [] } next (by simp only; omega)
          exact ⟨by simp only at mono ⊢; omega, rest⟩
    · simp only [idle, false_and, if_false]
      cases iter.nextEntry with
      | cons e es => exact ⟨le_refl _, by simp only; omega, fun _ => inside⟩
      | nil => exact ih _ inside low

structure HtIter.Ready (ht : RawHt α) (iter : HtIter α) : Prop where
  low : -1 ≤ iter.index
  inside : iter.index < ht.size

theorem htIterCreate_ready {ht : RawHt α} : (htIterCreate : HtIter α).Ready ht :=
  ⟨by simp [htIterCreate], by simp [htIterCreate]; omega⟩

theorem htIterNext_ready {ht : RawHt α} (len : ht.table.length = ht.size) {iter : HtIter α}
    (h : iter.Ready ht) :
    (htIterNext ht iter).1 = (htIterRest ht iter).head? ∧
      htIterRest ht (htIterNext ht iter).2 = (htIterRest ht iter).tail ∧
      iter.index ≤ (htIterNext ht iter).2.index ∧ (htIterNext ht iter).2.index ≤ ht.size ∧
      (htIterRest ht iter ≠ [] → (htIterNext ht iter).2.Ready ht) := by
  obtain ⟨low, head, tail⟩ :=
    htIterLoop_spec len (ht.size + 2) iter h.low (by split <;> omega)
  obtain ⟨mono, bound, inside⟩ := htIterLoop_index (ht.size + 2) iter h.inside h.low
  refine ⟨head, tail, mono, bound, fun more => ⟨low, inside ?_⟩⟩
  rw [head]
  exact List.isSome_head?.mpr more

theorem htIterCalls_ready {ht : RawHt α} (len : ht.table.length = ht.size) (calls : Nat)
    {iter : HtIter α} (h : iter.Ready ht) (left : calls ≤ (htIterRest ht iter).length) :
    (htIterCalls ht calls iter).1 = ((htIterRest ht iter).take calls).map some ∧
      htIterRest ht (htIterCalls ht calls iter).2 = (htIterRest ht iter).drop calls ∧
      (htIterCalls ht calls iter).2.Ready ht := by
  induction calls generalizing iter with
  | zero => simp [htIterCalls, h]
  | succ calls ih =>
    obtain ⟨head, tail, -, -, ready⟩ := htIterNext_ready len h
    cases hr : htIterRest ht iter with
    | nil => simp [hr] at left
    | cons e rest =>
      rw [hr] at head tail ready left
      simp only [List.head?_cons, List.tail_cons] at head tail
      obtain ⟨returned, behind, ready⟩ := ih (ready (by simp)) (by simpa [tail] using left)
      rw [tail] at returned behind
      simp only [htIterCalls]
      exact ⟨by simp [head, returned], by simp [behind], ready⟩

theorem htIterCalls_add (ht : RawHt α) (m n : Nat) (iter : HtIter α) :
    htIterCalls ht (m + n) iter =
      ((htIterCalls ht m iter).1 ++ (htIterCalls ht n (htIterCalls ht m iter).2).1,
        (htIterCalls ht n (htIterCalls ht m iter).2).2) := by
  induction m generalizing iter with
  | zero => simp [htIterCalls]
  | succ m ih => simp [Nat.succ_add, htIterCalls, ih]

/-- From `ht_iter_create` on, `used` calls return the entries of the table, each
once, and the next call returns NULL. No call runs out of rounds, and the index
stays an `int`. -/
theorem htIterCalls_create {ht : RawHt α} (h : ht.Shape) (small : ht.size < 2 ^ 31) :
    (htIterCalls ht (ht.used + 1) htIterCreate).1 = ht.entries.map some ++ [none] ∧
      ht.entries.length = ht.used ∧ (ht.entries.map HtEntry.key).Nodup ∧
      (∀ e, e ∈ ht.entries ↔ ∃ idx, e ∈ ht.chain idx) ∧
      ∀ calls ≤ ht.used, let iter := (htIterCalls ht calls htIterCreate).2
        (∀ extra, htIterLoop ht (ht.size + 2 + extra) iter = htIterNext ht iter) ∧
        -1 ≤ iter.index ∧ iter.index ≤ (htIterNext ht iter).2.index ∧
        (htIterNext ht iter).2.index < 2 ^ 31 := by
  have count : ht.entries.length = ht.used := h.used_eq.symm
  -- The calls up to one of them that still has something to return, or is the last.
  have upTo (calls : Nat) (le : calls ≤ ht.used) :
      (htIterCalls ht calls htIterCreate).1 = (ht.entries.take calls).map some ∧
        htIterRest ht (htIterCalls ht calls htIterCreate).2 = ht.entries.drop calls ∧
        (htIterCalls ht calls htIterCreate).2.Ready ht := by
    have run := htIterCalls_ready h.length_eq calls (htIterCreate_ready : HtIter.Ready ht _)
    rw [htIterRest_create] at run
    exact run (by omega)
  refine ⟨?_, count, h.keys_nodup, fun e => RawHt.mem_entries, fun calls le => ?_⟩
  · obtain ⟨returned, behind, ready⟩ := upTo ht.used (le_refl _)
    have last := (htIterNext_ready h.length_eq ready).1
    rw [behind, ← count, List.drop_length] at last
    rw [← count, List.take_length] at returned
    rw [← count, htIterCalls_add, returned]
    simp only [htIterCalls, last, List.head?_nil]
  · obtain ⟨-, -, ready⟩ := upTo calls le
    obtain ⟨-, -, mono, bound, -⟩ := htIterNext_ready h.length_eq ready
    have low := ready.low
    exact ⟨fun extra => htIterLoop_enough _ extra _ low (by split <;> omega), low, mono, by omega⟩

def twoChains : RawHt Int :=
  htSet (htSet (htSet htCreate (ascii "a") 1) (ascii "c") 2) (ascii "e") 3

theorem htIterCalls_twoChains :
    twoChains.Shape ∧ twoChains.size < 2 ^ 31 ∧
      (htIterCalls twoChains 4 htIterCreate).1 = twoChains.entries.map some ++ [none] := by
  have shape : twoChains.Shape := (htSet_wf (htSet_wf (htSet_wf htCreate_wf _ _) _ _) _ _).toShape
  have small : twoChains.size < 2 ^ 31 := by decide
  exact ⟨shape, small, (htIterCalls_create shape small).1⟩

end ByteKV.HashTable
