import ByteKV.CString
import Mathlib.Data.List.Flatten
import Mathlib.Data.List.Nodup
import Mathlib.Data.Nat.Bitwise
import Mathlib.Tactic.Ring

/-! The chained hash table of ht.c: djb2, power-of-two sizes, growth above a load
of three quarters. A chain is the list of its entries from the head; allocations
succeed. The last part says what every operation does to the table as a map. -/
namespace ByteKV.HashTable

structure HtEntry (α : Type) where
  key : Bytes
  val : α
  deriving DecidableEq, Repr

/-- `ht_t`, as its fields stand in memory. -/
structure RawHt (α : Type) where
  table : List (List (HtEntry α))
  size : Nat
  sizemask : Nat
  used : Nat
  deriving DecidableEq, Repr

variable {α : Type}

def htInitialSize : Nat := 4

def htCreate : RawHt α where
  table := List.replicate htInitialSize []
  size := htInitialSize
  sizemask := htInitialSize - 1
  used := 0

/-- A `char` is signed: bytes from 0x80 up are sign-extended to `size_t`. -/
def signExtend (c : UInt8) : Nat := if c < 0x80 then c.toNat else 2 ^ 64 - 256 + c.toNat

def htHash (key : Bytes) : Nat :=
  key.foldl (fun hash c => ((hash <<< 5) + hash + signExtend c) % 2 ^ 64) 5381

def RawHt.bucketOf (ht : RawHt α) (key : Bytes) : Nat := htHash key &&& ht.sizemask

def RawHt.chain (ht : RawHt α) (idx : Nat) : List (HtEntry α) := ht.table.getD idx []

def RawHt.setChain (ht : RawHt α) (idx : Nat) (chain : List (HtEntry α)) : RawHt α :=
  { ht with table := ht.table.set idx chain }

/-! Walks along one chain: find, assign through the entry found, unlink it. -/

def chainFind (key : Bytes) : List (HtEntry α) → Option (HtEntry α)
  | [] => none
  | e :: next => if e.key = key then some e else chainFind key next

def chainAssign (key : Bytes) (v : α) : List (HtEntry α) → Option (List (HtEntry α))
  | [] => none
  | e :: next =>
      if e.key = key then some ({ e with val := v } :: next)
      else (chainAssign key v next).map (e :: ·)

def chainUnlink (key : Bytes) : List (HtEntry α) → Option (List (HtEntry α))
  | [] => none
  | e :: next => if e.key = key then some next else (chainUnlink key next).map (e :: ·)

/-- `ht_upsert` together with the assignment its callers make to the entry it
returns. The flag is `*found`. -/
def htUpsert (ht : RawHt α) (key : Bytes) (v : α) : RawHt α × Bool :=
  let index := ht.bucketOf key
  match chainAssign key v (ht.chain index) with
  | some chain => (ht.setChain index chain, true)
  | none =>
      ({ ht.setChain index (⟨key, v⟩ :: ht.chain index) with used := ht.used + 1 }, false)

def relink (newSize : Nat) (table : List (List (HtEntry α))) (e : HtEntry α) :
    List (List (HtEntry α)) :=
  let newIdx := htHash e.key &&& (newSize - 1)
  table.set newIdx (e :: table.getD newIdx [])

def htResize (ht : RawHt α) (newSize : Nat) : RawHt α where
  table := ht.table.foldl (fun table chain => chain.foldl (relink newSize) table)
    (List.replicate newSize [])
  size := newSize
  sizemask := newSize - 1
  used := ht.used

/-- `ht_set_str` and `ht_set_i64`; the load factor test is exact, since a power
of two divides a `double` exactly. -/
def htSet (ht : RawHt α) (key : Bytes) (v : α) : RawHt α :=
  let (ht, found) := htUpsert ht key v
  let needResize := !found && decide (4 * ht.used > 3 * ht.size)
  if needResize then htResize ht (ht.size * 2) else ht

def htFind (ht : RawHt α) (key : Bytes) : Option (HtEntry α) :=
  chainFind key (ht.chain (ht.bucketOf key))

def htExists (ht : RawHt α) (key : Bytes) : Bool := (htFind ht key).isSome

def htGet (ht : RawHt α) (key : Bytes) : Option α := (htFind ht key).map (·.val)

def htDel (ht : RawHt α) (key : Bytes) : RawHt α × Bool :=
  let index := ht.bucketOf key
  match chainUnlink key (ht.chain index) with
  | some chain => ({ ht.setChain index chain with used := ht.used - 1 }, true)
  | none => (ht, false)

/-! The representation invariant. -/

def RawHt.entries (ht : RawHt α) : List (HtEntry α) := ht.table.flatten

structure RawHt.Shape (ht : RawHt α) : Prop where
  length_eq : ht.table.length = ht.size
  pow : ∃ k, ht.size = 2 ^ (k + 2)
  mask : ht.sizemask = ht.size - 1
  placed : ∀ idx, ∀ e ∈ ht.chain idx, ht.bucketOf e.key = idx
  distinct : ∀ idx, ((ht.chain idx).map HtEntry.key).Nodup
  used_eq : ht.used = ht.entries.length

structure RawHt.WF (ht : RawHt α) : Prop extends ht.Shape where
  load : 4 * ht.used ≤ 3 * ht.size

theorem land_lt {size : Nat} (h : ∃ k, size = 2 ^ (k + 2)) (x : Nat) : x &&& (size - 1) < size := by
  obtain ⟨k, rfl⟩ := h
  rw [Nat.and_two_pow_sub_one_eq_mod]
  exact Nat.mod_lt _ (Nat.two_pow_pos _)

theorem RawHt.Shape.bucketOf_lt {ht : RawHt α} (h : ht.Shape) (key : Bytes) :
    ht.bucketOf key < ht.table.length := by
  rw [h.length_eq, RawHt.bucketOf, h.mask]
  exact land_lt h.pow _

theorem RawHt.chain_replicate {n : Nat} {ht : RawHt α} (h : ht.table = List.replicate n [])
    (idx : Nat) : ht.chain idx = [] := by
  rw [RawHt.chain, h]
  by_cases hi : idx < n <;> simp [List.getD, hi]

theorem htCreate_chain (idx : Nat) : (htCreate : RawHt α).chain idx = [] :=
  RawHt.chain_replicate rfl idx

theorem htCreate_wf : (htCreate : RawHt α).WF where
  length_eq := rfl
  pow := ⟨0, rfl⟩
  mask := rfl
  placed idx e he := by simp [htCreate_chain] at he
  distinct idx := by simp [htCreate_chain]
  used_eq := rfl
  load := by simp [htCreate]

/-! Chains. -/

theorem chainFind_key {key : Bytes} {chain : List (HtEntry α)} {e : HtEntry α}
    (h : chainFind key chain = some e) : e ∈ chain ∧ e.key = key := by
  induction chain with
  | nil => simp [chainFind] at h
  | cons f next ih =>
    rw [chainFind] at h
    split at h
    · obtain rfl := Option.some.inj h
      exact ⟨List.mem_cons_self, by assumption⟩
    · exact ⟨List.mem_cons_of_mem _ (ih h).1, (ih h).2⟩

theorem chainFind_eq_none {key : Bytes} {chain : List (HtEntry α)} :
    chainFind key chain = none ↔ key ∉ chain.map HtEntry.key := by
  induction chain with
  | nil => simp [chainFind]
  | cons f next ih =>
    rw [chainFind]
    split
    · simp [*]
    · simp_all [eq_comm]

theorem chainFind_of_mem {chain : List (HtEntry α)} {e : HtEntry α}
    (distinct : (chain.map HtEntry.key).Nodup) (h : e ∈ chain) :
    chainFind e.key chain = some e := by
  induction chain with
  | nil => simp at h
  | cons f next ih =>
    obtain ⟨new, distinct⟩ := List.nodup_cons.mp distinct
    rcases List.mem_cons.mp h with rfl | h
    · simp [chainFind]
    · have ne : f.key ≠ e.key := fun heq => new (List.mem_map.mpr ⟨e, h, heq.symm⟩)
      simp [chainFind, ne, ih distinct h]

theorem chainAssign_none {key : Bytes} {v : α} {chain : List (HtEntry α)} :
    chainAssign key v chain = none ↔ chainFind key chain = none := by
  induction chain with
  | nil => simp [chainAssign, chainFind]
  | cons e next ih => by_cases h : e.key = key <;> simp [chainAssign, chainFind, h, ih]

theorem chainAssign_some {key : Bytes} {v : α} {chain chain' : List (HtEntry α)}
    (h : chainAssign key v chain = some chain') :
    chain'.map HtEntry.key = chain.map HtEntry.key ∧
      ∀ k, chainFind k chain' = if k = key then some ⟨key, v⟩ else chainFind k chain := by
  induction chain generalizing chain' with
  | nil => simp [chainAssign] at h
  | cons e next ih =>
    by_cases hk : e.key = key
    · obtain rfl : ⟨key, v⟩ :: next = chain' := by simpa [chainAssign, hk] using h
      refine ⟨by simp [hk], fun k => ?_⟩
      simp only [chainFind, hk, eq_comm (a := key)]
      split <;> rfl
    · obtain ⟨next', rest, rfl⟩ :
        ∃ next', chainAssign key v next = some next' ∧ e :: next' = chain' := by
        simpa [chainAssign, hk] using h
      obtain ⟨keys, find⟩ := ih rest
      refine ⟨by simp [keys], fun k => ?_⟩
      by_cases hek : e.key = k
      · subst hek
        simp [chainFind, hk]
      · simp [chainFind, hek, find]

theorem chainUnlink_none {key : Bytes} {chain : List (HtEntry α)} :
    chainUnlink key chain = none ↔ chainFind key chain = none := by
  induction chain with
  | nil => simp [chainUnlink, chainFind]
  | cons e next ih => by_cases h : e.key = key <;> simp [chainUnlink, chainFind, h, ih]

theorem chainUnlink_some {key : Bytes} {chain chain' : List (HtEntry α)}
    (h : chainUnlink key chain = some chain') :
    chain'.Sublist chain ∧ chain.length = chain'.length + 1 ∧
      ((chain.map HtEntry.key).Nodup →
        ∀ k, chainFind k chain' = if k = key then none else chainFind k chain) := by
  induction chain generalizing chain' with
  | nil => simp [chainUnlink] at h
  | cons e next ih =>
    by_cases hk : e.key = key
    · obtain rfl : next = chain' := by simpa [chainUnlink, hk] using h
      refine ⟨List.sublist_cons_self e next, rfl, fun distinct k => ?_⟩
      by_cases hkk : k = key
      · subst hkk
        rw [if_pos rfl, chainFind_eq_none, ← hk]
        exact (List.nodup_cons.mp distinct).1
      · simp [chainFind, hk, hkk, eq_comm (a := key)]
    · obtain ⟨next', rest, rfl⟩ :
        ∃ next', chainUnlink key next = some next' ∧ e :: next' = chain' := by
        simpa [chainUnlink, hk] using h
      obtain ⟨sub, len, find⟩ := ih rest
      refine ⟨sub.cons_cons e, by simp [len], fun distinct k => ?_⟩
      by_cases hek : e.key = k
      · subst hek
        simp [chainFind, hk]
      · simp [chainFind, hek, find (List.nodup_cons.mp distinct).2]

/-! Buckets. -/

theorem RawHt.chain_setChain {ht : RawHt α} {idx : Nat} (h : idx < ht.table.length)
    (chain : List (HtEntry α)) (j : Nat) :
    (ht.setChain idx chain).chain j = if j = idx then chain else ht.chain j := by
  simp only [RawHt.chain, RawHt.setChain, List.getD_eq_getElem?_getD, List.getElem?_set]
  by_cases hj : idx = j
  · subst hj
    simp [h]
  · simp [hj, Ne.symm hj]

theorem length_flatten_set {β : Type} {table : List (List β)} {idx : Nat}
    (h : idx < table.length) (chain : List β) :
    (table.set idx chain).flatten.length + (table.getD idx []).length =
      table.flatten.length + chain.length := by
  induction table generalizing idx with
  | nil => simp at h
  | cons c table ih =>
    cases idx with
    | zero => simp; omega
    | succ idx =>
      have := ih (Nat.lt_of_succ_lt_succ h)
      simp only [List.set_cons_succ, List.flatten_cons, List.length_append, List.getD_cons_succ]
      omega

theorem RawHt.mem_entries {ht : RawHt α} {e : HtEntry α} :
    e ∈ ht.entries ↔ ∃ idx, e ∈ ht.chain idx := by
  simp only [RawHt.entries, List.mem_flatten, RawHt.chain]
  constructor
  · rintro ⟨chain, hc, he⟩
    obtain ⟨idx, h, rfl⟩ := List.mem_iff_getElem.mp hc
    exact ⟨idx, by simpa [List.getD, h] using he⟩
  · rintro ⟨idx, he⟩
    by_cases h : idx < ht.table.length
    · exact ⟨ht.table[idx], List.getElem_mem h, by simpa [List.getD, h] using he⟩
    · simp [List.getD, h] at he

theorem htFind_setChain {ht : RawHt α} {idx : Nat} (h : idx < ht.table.length)
    (chain : List (HtEntry α)) (k : Bytes) :
    htFind (ht.setChain idx chain) k =
      if ht.bucketOf k = idx then chainFind k chain else htFind ht k := by
  have same : (ht.setChain idx chain).bucketOf k = ht.bucketOf k := rfl
  rw [htFind, same, RawHt.chain_setChain h]
  split <;> rfl

theorem RawHt.Shape.setChain {ht : RawHt α} (h : ht.Shape) {idx : Nat} (hi : idx < ht.table.length)
    {chain : List (HtEntry α)} {used : Nat} (placed : ∀ e ∈ chain, ht.bucketOf e.key = idx)
    (distinct : (chain.map HtEntry.key).Nodup)
    (count : used + (ht.chain idx).length = ht.used + chain.length) :
    ({ ht.setChain idx chain with used := used } : RawHt α).Shape where
  length_eq := by simpa [RawHt.setChain] using h.length_eq
  pow := h.pow
  mask := h.mask
  placed j e he := by
    change e ∈ (ht.setChain idx chain).chain j at he
    rw [RawHt.chain_setChain hi] at he
    split at he
    · rename_i hj
      exact hj ▸ placed e he
    · exact h.placed j e he
  distinct j := by
    change (((ht.setChain idx chain).chain j).map HtEntry.key).Nodup
    rw [RawHt.chain_setChain hi]
    split
    · exact distinct
    · exact h.distinct j
  used_eq := by
    have total := length_flatten_set hi chain
    have before := h.used_eq
    change used = (ht.table.set idx chain).flatten.length
    simp only [RawHt.entries, RawHt.chain] at before count
    omega

theorem RawHt.Shape.placed_of_keys {ht : RawHt α} (h : ht.Shape) {idx : Nat}
    {chain : List (HtEntry α)} (keys : chain.map HtEntry.key = (ht.chain idx).map HtEntry.key) :
    ∀ e ∈ chain, ht.bucketOf e.key = idx := by
  intro e he
  have hk : e.key ∈ (ht.chain idx).map HtEntry.key := keys ▸ List.mem_map_of_mem he
  obtain ⟨f, hf, hfe⟩ := List.mem_map.mp hk
  rw [← hfe]
  exact h.placed idx f hf

theorem RawHt.Shape.htFind_iff {ht : RawHt α} (h : ht.Shape) {k : Bytes} {e : HtEntry α} :
    htFind ht k = some e ↔ e ∈ ht.entries ∧ e.key = k := by
  constructor
  · intro hf
    obtain ⟨he, hk⟩ := chainFind_key hf
    exact ⟨RawHt.mem_entries.mpr ⟨_, he⟩, hk⟩
  · rintro ⟨he, rfl⟩
    obtain ⟨idx, he⟩ := RawHt.mem_entries.mp he
    rw [htFind, h.placed idx e he]
    exact chainFind_of_mem (h.distinct idx) he

theorem RawHt.Shape.htGet_iff {ht : RawHt α} (h : ht.Shape) {k : Bytes} {v : α} :
    htGet ht k = some v ↔ ⟨k, v⟩ ∈ ht.entries := by
  simp only [htGet, Option.map_eq_some_iff, h.htFind_iff]
  constructor
  · rintro ⟨e, ⟨he, rfl⟩, rfl⟩
    exact he
  · exact fun he => ⟨⟨k, v⟩, ⟨he, rfl⟩, rfl⟩

/-! ht_upsert. -/

theorem htUpsert_of_some {ht : RawHt α} {key : Bytes} {v : α} {chain : List (HtEntry α)}
    (h : chainAssign key v (ht.chain (ht.bucketOf key)) = some chain) :
    htUpsert ht key v = (ht.setChain (ht.bucketOf key) chain, true) := by
  simp only [htUpsert, h]

theorem htUpsert_of_none {ht : RawHt α} {key : Bytes} {v : α}
    (h : chainAssign key v (ht.chain (ht.bucketOf key)) = none) :
    htUpsert ht key v =
      ({ ht.setChain (ht.bucketOf key) (⟨key, v⟩ :: ht.chain (ht.bucketOf key)) with
        used := ht.used + 1 }, false) := by
  simp only [htUpsert, h]

theorem htUpsert_shape {ht : RawHt α} (h : ht.Shape) (key : Bytes) (v : α) :
    (htUpsert ht key v).1.Shape ∧ (htUpsert ht key v).1.size = ht.size ∧
      (htUpsert ht key v).1.used = ht.used + (if (htUpsert ht key v).2 then 0 else 1) := by
  have hi := h.bucketOf_lt key
  cases hc : chainAssign key v (ht.chain (ht.bucketOf key)) with
  | some chain =>
    obtain ⟨keys, -⟩ := chainAssign_some hc
    have len : chain.length = (ht.chain (ht.bucketOf key)).length := by
      simpa using congrArg List.length keys
    rw [htUpsert_of_some hc]
    refine ⟨h.setChain hi (h.placed_of_keys keys) (keys ▸ h.distinct _) ?_, rfl, rfl⟩
    rw [len]
  | none =>
    have new := chainFind_eq_none.mp (chainAssign_none.mp hc)
    rw [htUpsert_of_none hc]
    refine ⟨h.setChain hi ?_ ?_ ?_, rfl, rfl⟩
    · intro e he
      rcases List.mem_cons.mp he with rfl | he
      · rfl
      · exact h.placed _ e he
    · exact List.nodup_cons.mpr ⟨new, h.distinct _⟩
    · simp [Nat.add_assoc, Nat.add_comm]

theorem htFind_of_ne {ht : RawHt α} {key k : Bytes} {e : Option (HtEntry α)} (hk : k ≠ key) :
    (if ht.bucketOf k = ht.bucketOf key then
      (if k = key then e else chainFind k (ht.chain (ht.bucketOf key))) else htFind ht k) =
      htFind ht k := by
  rw [if_neg hk, ite_eq_right_iff]
  intro same
  rw [htFind, same]

theorem htUpsert_get {ht : RawHt α} (h : ht.Shape) (key : Bytes) (v : α) (k : Bytes) :
    htGet (htUpsert ht key v).1 k = if k = key then some v else htGet ht k := by
  have hi := h.bucketOf_lt key
  have find : htFind (htUpsert ht key v).1 k =
      if ht.bucketOf k = ht.bucketOf key then
        (if k = key then some ⟨key, v⟩ else chainFind k (ht.chain (ht.bucketOf key)))
      else htFind ht k := by
    cases hc : chainAssign key v (ht.chain (ht.bucketOf key)) with
    | some chain =>
      rw [htUpsert_of_some hc, htFind_setChain hi, (chainAssign_some hc).2]
    | none =>
      rw [htUpsert_of_none hc]
      change htFind (ht.setChain _ _) k = _
      rw [htFind_setChain hi, chainFind]
      simp only [eq_comm (a := key)]
  rw [htGet, find]
  by_cases hk : k = key
  · simp [hk]
  · rw [htFind_of_ne hk, if_neg hk]
    rfl

/-! ht_resize. -/

theorem htResize_table (ht : RawHt α) (newSize : Nat) :
    (htResize ht newSize).table = ht.entries.foldl (relink newSize) (List.replicate newSize []) := by
  rw [htResize, RawHt.entries, List.foldl_flatten]

theorem foldl_relink_length (newSize : Nat) (es : List (HtEntry α))
    (table : List (List (HtEntry α))) :
    (es.foldl (relink newSize) table).length = table.length := by
  induction es generalizing table with
  | nil => rfl
  | cons e es ih => simp [ih, relink]

/-- The relinked table: bucket `j` gets the entries that hash to it, last first. -/
theorem foldl_relink_getD {newSize : Nat} {es : List (HtEntry α)}
    {table : List (List (HtEntry α))} (h : ∀ x, x &&& (newSize - 1) < table.length) (j : Nat) :
    (es.foldl (relink newSize) table).getD j [] =
      (es.filter fun e => htHash e.key &&& (newSize - 1) = j).reverse ++ table.getD j [] := by
  induction es generalizing table with
  | nil => simp
  | cons e es ih =>
    have room := h (htHash e.key)
    rw [List.foldl_cons, ih (by simpa [relink] using h)]
    by_cases hj : htHash e.key &&& (newSize - 1) = j
    · subst hj
      simp [relink, List.getD_eq_getElem?_getD, room]
    · simp [relink, List.getD_eq_getElem?_getD, hj]

theorem relink_length_flatten {newSize : Nat} {table : List (List (HtEntry α))}
    (h : ∀ x, x &&& (newSize - 1) < table.length) (e : HtEntry α) :
    (relink newSize table e).flatten.length = table.flatten.length + 1 := by
  have := length_flatten_set (h (htHash e.key))
    (e :: table.getD (htHash e.key &&& (newSize - 1)) [])
  simp only [List.length_cons] at this
  simp only [relink]
  omega

theorem foldl_relink_flatten {newSize : Nat} {es : List (HtEntry α)}
    {table : List (List (HtEntry α))} (h : ∀ x, x &&& (newSize - 1) < table.length) :
    (es.foldl (relink newSize) table).flatten.length = table.flatten.length + es.length := by
  induction es generalizing table with
  | nil => simp
  | cons e es ih =>
    rw [List.foldl_cons, ih (by simpa [relink] using h), relink_length_flatten h, List.length_cons]
    omega

theorem RawHt.Shape.keys_nodup {ht : RawHt α} (h : ht.Shape) :
    (ht.entries.map HtEntry.key).Nodup := by
  rw [RawHt.entries, List.map_flatten, List.nodup_flatten]
  have at' : ∀ idx (hi : idx < ht.table.length), ht.chain idx = ht.table[idx] := by
    intro idx hi
    simp [RawHt.chain, List.getD, hi]
  constructor
  · intro keys hk
    obtain ⟨chain, hc, rfl⟩ := List.mem_map.mp hk
    obtain ⟨idx, hi, rfl⟩ := List.mem_iff_getElem.mp hc
    exact at' idx hi ▸ h.distinct idx
  · rw [List.pairwise_map, List.pairwise_iff_getElem]
    intro i j hi hj lt k hki hkj
    obtain ⟨e, he, rfl⟩ := List.mem_map.mp hki
    obtain ⟨f, hf, hfe⟩ := List.mem_map.mp hkj
    have hei := h.placed i e (at' i hi ▸ he)
    have hfj := h.placed j f (at' j hj ▸ hf)
    rw [hfe] at hfj
    omega

theorem htResize_chain (ht : RawHt α) {newSize : Nat} (h : ∃ k, newSize = 2 ^ (k + 2)) (j : Nat) :
    (htResize ht newSize).chain j =
      (ht.entries.filter fun e => htHash e.key &&& (newSize - 1) = j).reverse := by
  have room : ∀ x, x &&& (newSize - 1) < (List.replicate newSize ([] : List (HtEntry α))).length :=
    fun x => by simpa using land_lt h x
  rw [RawHt.chain, htResize_table, foldl_relink_getD room]
  by_cases hj : j < newSize <;> simp [List.getD, hj]

theorem htResize_shape {ht : RawHt α} (h : ht.Shape) {newSize : Nat}
    (pow : ∃ k, newSize = 2 ^ (k + 2)) : (htResize ht newSize).Shape where
  length_eq := by rw [htResize_table, foldl_relink_length]; simp [htResize]
  pow := pow
  mask := rfl
  placed j e he := by
    rw [htResize_chain ht pow, List.mem_reverse, List.mem_filter] at he
    exact of_decide_eq_true he.2
  distinct j := by
    rw [htResize_chain ht pow, List.map_reverse, List.nodup_reverse]
    exact h.keys_nodup.sublist (List.filter_sublist.map _)
  used_eq := by
    have room : ∀ x, x &&& (newSize - 1) <
        (List.replicate newSize ([] : List (HtEntry α))).length :=
      fun x => by simpa using land_lt pow x
    rw [RawHt.entries, htResize_table, foldl_relink_flatten room]
    simpa [htResize] using h.used_eq

theorem htResize_mem {ht : RawHt α} {newSize : Nat} (pow : ∃ k, newSize = 2 ^ (k + 2))
    {e : HtEntry α} : e ∈ (htResize ht newSize).entries ↔ e ∈ ht.entries := by
  rw [RawHt.mem_entries]
  simp [htResize_chain ht pow]

theorem htResize_get {ht : RawHt α} (h : ht.Shape) {newSize : Nat}
    (pow : ∃ k, newSize = 2 ^ (k + 2)) (k : Bytes) :
    htGet (htResize ht newSize) k = htGet ht k := by
  apply Option.ext
  intro v
  rw [(htResize_shape h pow).htGet_iff, h.htGet_iff, htResize_mem pow]

/-! The operations on the map the table stands for. -/

theorem RawHt.WF.pow_double {ht : RawHt α} (h : ht.WF) : ∃ k, ht.size * 2 = 2 ^ (k + 2) := by
  obtain ⟨k, hk⟩ := h.pow
  exact ⟨k + 1, by rw [hk]; ring⟩

theorem htSet_wf {ht : RawHt α} (h : ht.WF) (key : Bytes) (v : α) : (htSet ht key v).WF := by
  obtain ⟨shape, size, used⟩ := htUpsert_shape h.toShape key v
  have four : 4 ≤ ht.size := by
    obtain ⟨k, hk⟩ := h.pow
    have := Nat.one_le_two_pow (n := k)
    rw [hk, pow_add]
    omega
  have load := h.load
  have pow : ∃ k, (htUpsert ht key v).1.size * 2 = 2 ^ (k + 2) := size ▸ h.pow_double
  simp only [htSet]
  split
  · refine ⟨htResize_shape shape pow, ?_⟩
    change 4 * (htUpsert ht key v).1.used ≤ 3 * ((htUpsert ht key v).1.size * 2)
    split at used <;> omega
  · rename_i small
    refine ⟨shape, ?_⟩
    cases found : (htUpsert ht key v).2 <;> simp [found] at small used <;> omega

theorem htGet_htSet {ht : RawHt α} (h : ht.WF) (key : Bytes) (v : α) (k : Bytes) :
    htGet (htSet ht key v) k = if k = key then some v else htGet ht k := by
  obtain ⟨shape, size, -⟩ := htUpsert_shape h.toShape key v
  have pow : ∃ k, (htUpsert ht key v).1.size * 2 = 2 ^ (k + 2) := size ▸ h.pow_double
  simp only [htSet]
  split
  · rw [htResize_get shape pow, htUpsert_get h.toShape]
  · exact htUpsert_get h.toShape key v k

theorem htDel_of_some {ht : RawHt α} {key : Bytes} {chain : List (HtEntry α)}
    (h : chainUnlink key (ht.chain (ht.bucketOf key)) = some chain) :
    htDel ht key = ({ ht.setChain (ht.bucketOf key) chain with used := ht.used - 1 }, true) := by
  simp only [htDel, h]

theorem htDel_of_none {ht : RawHt α} {key : Bytes}
    (h : chainUnlink key (ht.chain (ht.bucketOf key)) = none) : htDel ht key = (ht, false) := by
  simp only [htDel, h]

theorem htDel_wf {ht : RawHt α} (h : ht.WF) (key : Bytes) : (htDel ht key).1.WF := by
  have hi := h.bucketOf_lt key
  cases hc : chainUnlink key (ht.chain (ht.bucketOf key)) with
  | none => rwa [htDel_of_none hc]
  | some chain =>
    obtain ⟨sub, len, -⟩ := chainUnlink_some hc
    have held : (ht.chain (ht.bucketOf key)).length ≤ ht.used := by
      have := length_flatten_set hi []
      simp only [List.length_nil] at this
      rw [h.used_eq, RawHt.entries, RawHt.chain]
      omega
    have load := h.load
    rw [htDel_of_some hc]
    refine ⟨h.toShape.setChain hi (fun e he => h.placed _ e (sub.subset he))
      ((h.distinct _).sublist (sub.map _)) ?_, ?_⟩
    · omega
    · change 4 * (ht.used - 1) ≤ 3 * ht.size
      omega

theorem htGet_htDel {ht : RawHt α} (h : ht.WF) (key k : Bytes) :
    htGet (htDel ht key).1 k = if k = key then none else htGet ht k := by
  have hi := h.bucketOf_lt key
  cases hc : chainUnlink key (ht.chain (ht.bucketOf key)) with
  | none =>
    rw [htDel_of_none hc]
    by_cases hk : k = key
    · rw [if_pos hk, hk, htGet, htFind, chainUnlink_none.mp hc]
      rfl
    · rw [if_neg hk]
  | some chain =>
    rw [htDel_of_some hc]
    change (htFind (ht.setChain _ chain) k).map _ = _
    rw [htFind_setChain hi, (chainUnlink_some hc).2.2 (h.distinct _)]
    by_cases hk : k = key
    · simp [hk]
    · rw [htFind_of_ne hk, if_neg hk]
      rfl

theorem htDel_status (ht : RawHt α) (key : Bytes) : (htDel ht key).2 = htExists ht key := by
  unfold htExists htFind
  cases hc : chainUnlink key (ht.chain (ht.bucketOf key)) with
  | none => simp [htDel_of_none hc, chainUnlink_none.mp hc]
  | some chain =>
    have : chainFind key (ht.chain (ht.bucketOf key)) ≠ none := fun hn => by
      simp [chainUnlink_none.mpr hn] at hc
    simpa [htDel_of_some hc, Option.isSome_iff_ne_none] using this

theorem htExists_eq (ht : RawHt α) (key : Bytes) : htExists ht key = (htGet ht key).isSome := by
  simp [htExists, htGet]

end ByteKV.HashTable
