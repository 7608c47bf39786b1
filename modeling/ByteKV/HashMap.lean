import ByteKV.HashTable

/-! Hash tables together with their representation invariant, so that a broken
table cannot be built, and the iterator of ht.c over them. -/
namespace ByteKV.HashTable

structure Ht (α : Type) where
  raw : RawHt α
  wf : raw.WF

namespace Ht
variable {α : Type}

def create : Ht α := ⟨htCreate, htCreate_wf⟩

def set (ht : Ht α) (key : Bytes) (v : α) : Ht α := ⟨htSet ht.raw key v, htSet_wf ht.wf key v⟩

/-- The flag is false for `EXIT_FAILURE`. -/
def del (ht : Ht α) (key : Bytes) : Ht α × Bool :=
  (⟨(htDel ht.raw key).1, htDel_wf ht.wf key⟩, (htDel ht.raw key).2)

def get (ht : Ht α) (key : Bytes) : Option α := htGet ht.raw key

def exists_ (ht : Ht α) (key : Bytes) : Bool := htExists ht.raw key

def getBucket (ht : Ht α) (idx : Nat) : List (HtEntry α) := ht.raw.chain idx

def entries (ht : Ht α) : List (HtEntry α) := ht.raw.entries

@[simp] theorem get_create (key : Bytes) : (create : Ht α).get key = none := by
  simp [get, create, htGet, htFind, htCreate_chain, chainFind]

@[simp] theorem get_set (ht : Ht α) (key : Bytes) (v : α) (k : Bytes) :
    (ht.set key v).get k = if k = key then some v else ht.get k :=
  htGet_htSet ht.wf key v k

@[simp] theorem get_del (ht : Ht α) (key k : Bytes) :
    (ht.del key).1.get k = if k = key then none else ht.get k :=
  htGet_htDel ht.wf key k

@[simp] theorem exists_eq (ht : Ht α) (key : Bytes) : ht.exists_ key = (ht.get key).isSome :=
  htExists_eq ht.raw key

@[simp] theorem del_status (ht : Ht α) (key : Bytes) : (ht.del key).2 = (ht.get key).isSome :=
  (htDel_status ht.raw key).trans (htExists_eq ht.raw key)

theorem mem_entries_iff (ht : Ht α) {k : Bytes} {v : α} :
    ⟨k, v⟩ ∈ ht.entries ↔ ht.get k = some v :=
  ht.wf.htGet_iff.symm

theorem keys_nodup (ht : Ht α) : (ht.entries.map HtEntry.key).Nodup := ht.wf.keys_nodup

end Ht

/-! ht_iter_next. -/

variable {α : Type}

/-- `ht_iter_t`. A pointer into a chain is the chain from there on; NULL is `[]`. -/
structure HtIter (α : Type) where
  index : Int
  entry : List (HtEntry α)
  nextEntry : List (HtEntry α)
  deriving DecidableEq, Repr

def htIterCreate : HtIter α := ⟨-1, [], []⟩

/-- The loop of `ht_iter_next`; `rounds` bounds its iterations. -/
def htIterLoop (ht : RawHt α) : (rounds : Nat) → HtIter α → Option (HtEntry α) × HtIter α
  | 0, iter => (none, iter)
  | rounds + 1, iter =>
      let index := iter.index + 1
      if iter.entry = [] ∧ ht.size ≤ index.toNat then (none, { iter with index := index })
      else
        let iter := if iter.entry = [] then { iter with index := index, entry := ht.chain index.toNat }
          else { iter with entry := iter.nextEntry }
        match iter.entry with
        | e :: next => (some e, { iter with nextEntry := next })
        | [] => htIterLoop ht rounds iter

def htIterNext (ht : RawHt α) (iter : HtIter α) : Option (HtEntry α) × HtIter α :=
  htIterLoop ht (ht.size + 2) iter

/-- The entries an iterator has not returned yet. -/
def htIterRest (ht : RawHt α) (iter : HtIter α) : List (HtEntry α) :=
  (if iter.entry = [] then [] else iter.nextEntry) ++
    (ht.table.drop (iter.index + 1).toNat).flatten

theorem htIterRest_create (ht : RawHt α) : htIterRest ht htIterCreate = ht.entries := by
  simp [htIterRest, htIterCreate, RawHt.entries]

theorem drop_flatten_of_lt {ht : RawHt α} {idx : Nat} (h : idx < ht.table.length) :
    (ht.table.drop idx).flatten = ht.chain idx ++ (ht.table.drop (idx + 1)).flatten := by
  rw [List.drop_eq_getElem_cons h, List.flatten_cons]
  simp [RawHt.chain, List.getD, h]

theorem htIterLoop_spec {ht : RawHt α} (len : ht.table.length = ht.size) (rounds : Nat)
    (iter : HtIter α) (low : -1 ≤ iter.index)
    (enough : (if iter.entry = [] then 0 else 1) + (ht.size - (iter.index + 1).toNat) < rounds) :
    -1 ≤ (htIterLoop ht rounds iter).2.index ∧
      (htIterLoop ht rounds iter).1 = (htIterRest ht iter).head? ∧
      htIterRest ht (htIterLoop ht rounds iter).2 = (htIterRest ht iter).tail := by
  induction rounds generalizing iter with
  | zero => omega
  | succ rounds ih =>
    rw [htIterLoop]
    have next : (iter.index + 1 + 1).toNat = (iter.index + 1).toNat + 1 := by omega
    by_cases idle : iter.entry = []
    · by_cases past : ht.size ≤ (iter.index + 1).toNat
      · -- Past the last bucket there is nothing left to return.
        have done : htIterRest ht iter = [] := by
          simp [htIterRest, idle, List.drop_eq_nil_of_le (len ▸ past)]
        refine ⟨?_, ?_, ?_⟩ <;> simp only [idle, past, and_self, if_true, done]
        · omega
        · rfl
        · have past : ht.table.length ≤ (iter.index + 1 + 1).toNat := by omega
          simp [htIterRest, List.drop_eq_nil_of_le past]
      · have inside : (iter.index + 1).toNat < ht.table.length := by omega
        have rest : htIterRest ht iter =
            ht.chain (iter.index + 1).toNat ++ (ht.table.drop (iter.index + 1 + 1).toNat).flatten := by
          rw [next, ← drop_flatten_of_lt inside]
          simp [htIterRest, idle]
        simp only [idle, past, and_false, if_false, if_true]
        cases hc : ht.chain (iter.index + 1).toNat with
        | cons e es =>
          simp only [rest, hc]
          exact ⟨by omega, rfl, by simp [htIterRest]⟩
        | nil =>
          have same : htIterRest ht { iter with index := iter.index + 1, entry := [] } =
              htIterRest ht iter := by
            rw [rest, hc]
            simp [htIterRest]
          have := ih { iter with index := iter.index + 1, entry := [] } (by simp; omega)
            (by simp [idle] at enough ⊢; omega)
          rwa [same] at this
    · have rest : htIterRest ht iter =
          iter.nextEntry ++ (ht.table.drop (iter.index + 1).toNat).flatten := by
        simp [htIterRest, idle]
      simp only [idle, false_and, if_false]
      cases hn : iter.nextEntry with
      | cons e es =>
        simp only [rest, hn]
        exact ⟨low, rfl, by simp [htIterRest]⟩
      | nil =>
        have same : htIterRest ht { iter with entry := iter.nextEntry } = htIterRest ht iter := by
          simp [htIterRest, hn]
        have := ih { iter with entry := iter.nextEntry } low (by simp [idle, hn] at enough ⊢; omega)
        rw [same] at this
        simpa [hn] using this

theorem htIterNext_spec (ht : Ht α) (iter : HtIter α) (low : -1 ≤ iter.index) :
    -1 ≤ (htIterNext ht.raw iter).2.index ∧
      (htIterNext ht.raw iter).1 = (htIterRest ht.raw iter).head? ∧
      htIterRest ht.raw (htIterNext ht.raw iter).2 = (htIterRest ht.raw iter).tail :=
  htIterLoop_spec ht.wf.length_eq _ iter low (by split <;> omega)

end ByteKV.HashTable
