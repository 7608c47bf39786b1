import ByteKV.TableMemory

/-! How the table of HashTable stands in memory, and what the functions of ht.c do to it
there: they follow no pointer into freed memory, and come to what HashTable computes. -/
namespace ByteKV.TableLayout
open HashTable (HtEntry RawHt)
open Separation Assn HeapProgram TableMemory

/-! One round of a walk, and the small steps. -/

theorem findLoop_null (key : Ptr) : findLoop key null = pure null := by
  rw [findLoop, loop_eq]
  rfl

theorem findLoop_eq (key : Ptr) {p : Ptr} (nonzero : p ≠ null) :
    findLoop key p = load EntryBlock p >>= fun e => strcmpEq e.key key >>= fun same =>
      if same then pure p else findLoop key e.next := by
  rw [findLoop, loop_eq, if_neg nonzero]
  simp only [bind_assoc]
  refine bind_congr fun e => bind_congr fun same => ?_
  cases same <;> rfl

section Steps
variable {P F G : Assn Ptr Block} {β : Type} {R : β → Assn Ptr Block} {s t : Ptr} {a b : Bytes}

theorem strcmpEq_run {m : Memory Ptr Block} (left : m.heap.lookup s = some (Layout.put a))
    (right : m.heap.lookup t = some (Layout.put b)) :
    strcmpEq s t m = some (.ok (decide (a = b), m)) := by
  rw [strcmpEq, bind_run (load_run left), bind_run (load_run right), pure_run]

theorem htHash_run {m : Memory Ptr Block} (here : m.heap.lookup s = some (Layout.put a)) :
    htHash s m = some (.ok (HashTable.htHash a, m)) := by
  rw [htHash, bind_run (load_run here), pure_run]

theorem slot_run {m : Memory Ptr Block} {table : List Ptr} {i : Nat}
    (here : m.heap.lookup t = some (Layout.put table)) (inside : i < table.length) :
    slot t i m = some (.ok (table[i], m)) := by
  rw [slot, bind_run (load_run here), List.getElem?_eq_getElem inside]
  rfl

theorem strcmpEq_step {f : Bool → Proc β} [Has P s (Layout.put a) F] [Has P t (Layout.put b) G]
    (next : Triple P (f (decide (a = b))) R) : Triple P (strcmpEq s t >>= f) R := by
  simp only [strcmpEq, bind_assoc, pure_bind]
  exact .load (.load next)

theorem htHash_step {f : Nat → Proc β} [Has P s (Layout.put a) F]
    (next : Triple P (f (HashTable.htHash a)) R) : Triple P (htHash s >>= f) R := by
  simp only [htHash, bind_assoc, pure_bind]
  exact .load next

theorem strdup_step {malloc : Allocator Ptr Block} (ample : malloc.Ample) {f : Ptr → Proc β}
    [Has P s (Layout.put a) F] (next : ∀ c, c ≠ null → Triple (cell c a * P) (f c) R) :
    Triple P (strdup malloc s >>= f) R := by
  simp only [strdup, bind_assoc]
  exact .load (.alloc ample next)

theorem slot_step {f : Ptr → Proc β} {table : List Ptr} {i : Nat} [Has P t (Layout.put table) F]
    (inside : i < table.length) (next : Triple P (f table[i]) R) :
    Triple P (slot t i >>= f) R := by
  simp only [slot, bind_assoc]
  refine .load ?_
  simp only [List.getElem?_eq_getElem inside, pure_bind]
  exact next

theorem setSlot_step {f : Unit → Proc β} {table : List Ptr} {i : Nat} {entry : Ptr}
    [has : Has P t (Layout.put table) F] (inside : i < table.length)
    (next : Triple (cell t (table.set i entry) * F) (f ()) R) :
    Triple P (setSlot t i entry >>= f) R := by
  simp only [setSlot, bind_assoc]
  refine .load ?_
  rw [if_pos inside]
  exact .store next

theorem freeStr_step {f : Unit → Proc β} {entry : Ptr} {e : EntryBlock} {w : Block}
    [Has P entry (Layout.put e) F] (str : e.val = .str s) [Has P s w G]
    (next : Triple G (f ()) R) : Triple P (freeStr entry >>= f) R := by
  simp only [freeStr, bind_assoc]
  refine .load ?_
  simp only [str]
  exact .free next

end Steps

/-- A type of values: how one stands in an entry, in how many blocks of its own, and that
`ht_val_free` frees it. -/
class Stored (α : Type) where
  valType : HtValType
  owns : HtVal → α → Assn Ptr Block
  blocks : Nat
  sized (v : HtVal) (a : α) : Sized blocks (owns v a)
  freed (ht entry : Ptr) (h : HtBlock) (e : EntryBlock) (a : α) (type : h.valType = valType) :
    Triple (cell ht h * (cell entry e * owns e.val a)) (htValFree ht entry)
      fun _ => cell ht h * cell entry e

instance : Stored Bytes where
  valType := .str
  owns v b := ⨆ s : Ptr, fact (v = .str s) * cell s b
  blocks := 1
  sized _ _ := .iSup fun s => .fact_mul fun _ => .pts s _
  freed ht entry h e b type := by
    rw [← mul_assoc, mul_comm, Quantale.iSup_mul_distrib]
    refine .exists_ fun s => .of_fact_mul fun str => .load ?_
    rw [if_pos type, ← bind_pure (freeStr entry)]
    exact freeStr_step str (.done le_rfl)

instance : Stored Int where
  valType := .i64
  owns v n := fact (v = .i64 n)
  blocks := 0
  sized v n := .fact _
  freed ht entry h e n type := by
    refine .load ?_
    rw [if_neg (by simp [type]), mul_comm (cell entry e), mul_left_comm]
    exact .of_fact fun _ => .done le_rfl

section Layout
variable {α : Type} [Stored α]

def chainAt : Ptr → List (HtEntry α) → Assn Ptr Block
  | p, [] => fact (p = null)
  | p, e :: es => ⨆ k : Ptr, ⨆ v : HtVal, ⨆ q : Ptr,
      cell p (⟨k, v, q⟩ : EntryBlock) * (cell k e.key * (Stored.owns v e.val * chainAt q es))

def chainsAt (slots : List Ptr) (table : List (List (HtEntry α))) : Assn Ptr Block :=
  (List.zipWith chainAt slots table).prod

/-- The table, as the fields of `ht` say. -/
def htAt (ht : Ptr) (raw : RawHt α) : Assn Ptr Block :=
  ⨆ t : Ptr, ⨆ slots : List Ptr, fact (slots.length = raw.table.length) *
    (cell ht (⟨t, Stored.valType α, raw.size, raw.sizemask, raw.used⟩ : HtBlock) *
      (cell t slots * chainsAt slots raw.table))

theorem chainAt_nil : chainAt null ([] : List (HtEntry α)) = 1 := fact_of rfl

theorem chainsAt_nil : chainsAt [] ([] : List (List (HtEntry α))) = 1 := rfl

theorem chainsAt_cons (p : Ptr) (ps : List Ptr) (c : List (HtEntry α))
    (cs : List (List (HtEntry α))) :
    chainsAt (p :: ps) (c :: cs) = chainAt p c * chainsAt ps cs := by
  rw [chainsAt, List.zipWith_cons_cons, List.prod_cons]
  rfl

theorem chainAt_sized (p : Ptr) (es : List (HtEntry α)) :
    Sized ((2 + Stored.blocks α) * es.length) (chainAt p es) := by
  induction es generalizing p with
  | nil => exact .fact _
  | cons e es ih =>
    refine .iSup fun k => .iSup fun v => .iSup fun q => ?_
    have one := (Sized.pts p (Layout.put (⟨k, v, q⟩ : EntryBlock) : Block)).mul
      ((Sized.pts k (Layout.put e.key)).mul ((Stored.sized v e.val).mul (ih q)))
    have count : (2 + Stored.blocks α) * (e :: es).length =
        1 + (1 + (Stored.blocks α + (2 + Stored.blocks α) * es.length)) := by
      rw [List.length_cons, Nat.mul_succ]
      omega
    rwa [count]

theorem chainsAt_sized {slots : List Ptr} {table : List (List (HtEntry α))}
    (same : slots.length = table.length) :
    Sized ((2 + Stored.blocks α) * table.flatten.length) (chainsAt slots table) := by
  induction slots generalizing table with
  | nil =>
    obtain rfl := List.length_eq_zero_iff.mp same.symm
    exact .one
  | cons p slots ih =>
    cases table with
    | nil => simp at same
    | cons chain table =>
      rw [chainsAt_cons, List.flatten_cons, List.length_append, Nat.mul_add]
      exact (chainAt_sized p chain).mul (ih (Nat.succ.inj same))

theorem htAt_sized (ht : Ptr) {raw : RawHt α} (shape : raw.Shape) :
    Sized (2 + (2 + Stored.blocks α) * raw.used) (htAt ht raw) := by
  refine .iSup fun t => .iSup fun slots => .fact_mul fun same => ?_
  rw [shape.used_eq, Nat.add_assoc 1 1]
  exact (Sized.pts ht _).mul ((Sized.pts t _).mul (chainsAt_sized same))

theorem chainsAt_set {slots : List Ptr} {table : List (List (HtEntry α))} {i : Nat}
    (inSlots : i < slots.length) (inTable : i < table.length) (p : Ptr) (chain : List (HtEntry α)) :
    chainsAt (slots.set i p) (table.set i chain) =
      chainAt p chain * chainsAt (slots.set i null) (table.set i []) := by
  induction slots generalizing table i with
  | nil => simp at inSlots
  | cons q slots ih =>
    cases table with
    | nil => simp at inTable
    | cons c table =>
      cases i with
      | zero => simp only [List.set_cons_zero, chainsAt_cons, chainAt_nil, one_mul]
      | succ i =>
        simp only [List.set_cons_succ, chainsAt_cons]
        rw [ih (Nat.lt_of_succ_lt_succ inSlots) (Nat.lt_of_succ_lt_succ inTable), mul_left_comm]

theorem chainsAt_split {slots : List Ptr} {table : List (List (HtEntry α))} {i : Nat}
    (inSlots : i < slots.length) (inTable : i < table.length) : chainsAt slots table =
      chainAt slots[i] table[i] * chainsAt (slots.set i null) (table.set i []) := by
  have whole := chainsAt_set inSlots inTable slots[i] table[i]
  rwa [List.set_getElem_self, List.set_getElem_self] at whole

theorem chainAt_intro {p k q : Ptr} {v : HtVal} {e : HtEntry α} {es : List (HtEntry α)} :
    cell p (⟨k, v, q⟩ : EntryBlock) * (cell k e.key * (Stored.owns v e.val * chainAt q es)) ≤
      chainAt p (e :: es) :=
  le_iSup_of_le k (le_iSup_of_le v (le_iSup_of_le q le_rfl))

theorem within_chain_cons {h : Heap Ptr Block} {p : Ptr} {e : HtEntry α} {es : List (HtEntry α)}
    (held : h ∈ within (chainAt p (e :: es))) : p ≠ null ∧ ∃ k v q,
      h.lookup p = some (Layout.put (⟨k, v, q⟩ : EntryBlock)) ∧
      h.lookup k = some (Layout.put e.key) ∧
      h ∈ within (Stored.owns v e.val : Assn Ptr Block) ∧ h ∈ within (chainAt q es) := by
  obtain ⟨k, held⟩ := within_iSup.mp held
  obtain ⟨v, held⟩ := within_iSup.mp held
  obtain ⟨q, held⟩ := within_iSup.mp held
  obtain ⟨nonzero, entry⟩ := within_pts (within_left held)
  have strings := within_right held
  have rest := within_right strings
  exact ⟨nonzero, k, v, q, entry, (within_pts (within_left strings)).2, within_left rest,
    within_right rest⟩

def Found (h : Heap Ptr Block) (r : Ptr) : Option (HtEntry α) → Prop
  | none => r = null
  | some e => r ≠ null ∧ ∃ k v q, h.lookup r = some (Layout.put (⟨k, v, q⟩ : EntryBlock)) ∧
      h ∈ within (Stored.owns v e.val : Assn Ptr Block)

theorem findLoop_run {m : Memory Ptr Block} {key p : Ptr} {k : Bytes} {es : List (HtEntry α)}
    (here : m.heap.lookup key = some (Layout.put k)) (chain : m.heap ∈ within (chainAt p es)) :
    ∃ r, findLoop key p m = some (.ok (r, m)) ∧ Found m.heap r (HashTable.chainFind k es) := by
  induction es generalizing p with
  | nil =>
    rw [chainAt, ← mul_one (fact (p = null) : Assn Ptr Block)] at chain
    obtain rfl := (within_fact chain).1
    exact ⟨null, by rw [findLoop_null, pure_run], rfl⟩
  | cons e es ih =>
    obtain ⟨nonzero, kp, v, q, entry, chars, value, rest⟩ := within_chain_cons chain
    rw [findLoop_eq key nonzero, bind_run (load_run entry), bind_run (strcmpEq_run chars here),
      HashTable.chainFind]
    by_cases same : e.key = k
    · rw [if_pos same, if_pos (decide_eq_true same)]
      exact ⟨p, rfl, nonzero, kp, v, q, entry, value⟩
    · rw [if_neg same, if_neg (by simpa using same)]
      exact ih rest

/-- An entry whose value is open: with any value put there it makes `whole` of it. -/
def openAt (r : Ptr) (v : HtVal) (whole : α → Assn Ptr Block) : Assn Ptr Block :=
  ⨆ k : Ptr, ⨆ q : Ptr, ⨆ F : Assn Ptr Block,
    fact (∀ v' a, cell r (⟨k, v', q⟩ : EntryBlock) * (Stored.owns v' a * F) ≤ whole a) *
      (cell r (⟨k, v, q⟩ : EntryBlock) * F)

theorem openAt_intro {r k q : Ptr} {v : HtVal} {F : Assn Ptr Block} {whole : α → Assn Ptr Block}
    (closed : ∀ v' a, cell r (⟨k, v', q⟩ : EntryBlock) * (Stored.owns v' a * F) ≤ whole a) :
    cell r (⟨k, v, q⟩ : EntryBlock) * F ≤ openAt r v whole :=
  le_iSup_of_le k (le_iSup_of_le q (le_iSup_of_le F (le_fact_mul closed le_rfl)))

theorem open_value {r : Ptr} {v : HtVal} {whole : α → Assn Ptr Block} {G : Assn Ptr Block}
    {β : Type} {c : Proc β} {R : β → Assn Ptr Block}
    (next : ∀ (k q : Ptr) (F : Assn Ptr Block),
      (∀ v' a, cell r (⟨k, v', q⟩ : EntryBlock) * (Stored.owns v' a * F) ≤ whole a) →
        Triple (cell r (⟨k, v, q⟩ : EntryBlock) * (F * G)) c R) :
    Triple (openAt r v whole * G) c R := by
  refine .exists_mul fun k => .exists_mul fun q => .exists_mul fun F => .of_fact_mul fun closed => ?_
  rw [mul_assoc]
  exact next k q F closed

theorem openAt_mul_le {r : Ptr} {v : HtVal} {whole whole' : α → Assn Ptr Block}
    {G : Assn Ptr Block} (le : ∀ a, whole a * G ≤ whole' a) :
    openAt r v whole * G ≤ openAt r v whole' := by
  simp only [openAt, Quantale.iSup_mul_distrib, mul_assoc]
  refine iSup_mono fun k => iSup_mono fun q => iSup_le fun F => ?_
  refine le_iSup_of_le (F * G) (fact_mul_le fun closed => le_fact_mul (fun v' a => ?_) le_rfl)
  calc cell r (⟨k, v', q⟩ : EntryBlock) * (Stored.owns v' a * (F * G))
      = cell r (⟨k, v', q⟩ : EntryBlock) * (Stored.owns v' a * F) * G := by ac_rfl
    _ ≤ whole a * G := mul_le_mul_left (closed v' a) G
    _ ≤ whole' a := le a

theorem openAt_cons {p k q : Ptr} {v : HtVal} {key : Bytes} {es : List (HtEntry α)} :
    cell p (⟨k, v, q⟩ : EntryBlock) * (cell k key * chainAt q es) ≤
      openAt p v fun a : α => chainAt p (⟨key, a⟩ :: es) := by
  refine openAt_intro fun v' a => ?_
  rw [mul_left_comm (Stored.owns v' a)]
  exact chainAt_intro (e := ⟨key, a⟩)

def assigned (key : Bytes) (es : List (HtEntry α)) (a : α) : List (HtEntry α) :=
  (HashTable.chainAssign key a es).getD es

omit [Stored α] in
theorem assigned_head {k : Bytes} {e : HtEntry α} (es : List (HtEntry α)) (same : e.key = k)
    (a : α) : assigned k (e :: es) a = { e with val := a } :: es := by
  rw [assigned, HashTable.chainAssign, if_pos same]
  rfl

omit [Stored α] in
theorem assigned_tail {k : Bytes} {e : HtEntry α} (es : List (HtEntry α)) (other : e.key ≠ k)
    (a : α) : assigned k (e :: es) a = e :: assigned k es a := by
  rw [assigned, assigned, HashTable.chainAssign, if_neg other]
  cases HashTable.chainAssign k a es <;> rfl

omit [Stored α] in
theorem assigned_eq {k : Bytes} {es : List (HtEntry α)} {e : HtEntry α}
    (found : HashTable.chainFind k es = some e) (a : α) :
    HashTable.chainAssign k a es = some (assigned k es a) := by
  rw [assigned]
  cases eq : HashTable.chainAssign k a es with
  | none => simp [HashTable.chainAssign_none.mp eq] at found
  | some es' => rfl

theorem findLoop_found {key p : Ptr} {k : Bytes} {es : List (HtEntry α)} {e : HtEntry α}
    (found : HashTable.chainFind k es = some e) :
    Triple (chainAt p es * cell key k) (findLoop key p) fun r => ⨆ v : HtVal, fact (r ≠ null) *
      (Stored.owns v e.val * openAt r v (fun a => chainAt p (assigned k es a)) * cell key k) := by
  induction es generalizing p with
  | nil => simp [HashTable.chainFind] at found
  | cons f es ih =>
    rw [HashTable.chainFind] at found
    refine .exists_mul fun kp => .exists_mul fun v => .exists_mul fun q => ?_
    refine .nonzero p fun nonzero => ?_
    rw [findLoop_eq key nonzero]
    refine .load (strcmpEq_step ?_)
    by_cases same : f.key = k
    · rw [if_pos same] at found
      obtain rfl := Option.some.inj found
      rw [if_pos (decide_eq_true same)]
      simp only [assigned_head es same]
      refine .done (le_iSup_of_le v (le_fact_mul nonzero (mul_le_mul_left ?_ _)))
      rw [mul_left_comm (cell kp f.key), mul_left_comm]
      exact mul_le_mul_right openAt_cons _
    · rw [if_neg same] at found
      rw [if_neg (by simpa using same)]
      simp only [assigned_tail es same]
      refine .tail (ih found) fun r => ?_
      rw [Quantale.iSup_mul_distrib]
      refine iSup_mono fun v' => ?_
      rw [mul_assoc (fact _), mul_right_comm, mul_assoc (Stored.owns v' e.val)]
      refine mul_le_mul_right (mul_le_mul_left (mul_le_mul_right (openAt_mul_le fun a => ?_) _) _) _
      refine le_trans (le_of_eq ?_) (chainAt_intro (k := kp) (v := v) (q := q))
      ac_rfl

theorem findLoop_missing {key p : Ptr} {k : Bytes} {es : List (HtEntry α)}
    (missing : HashTable.chainFind k es = none) :
    Triple (chainAt p es * cell key k) (findLoop key p) fun r =>
      fact (r = null) * (chainAt p es * cell key k) := by
  refine .of_reads fun m held => ?_
  obtain ⟨r, ran, found⟩ := findLoop_run (within_pts (within_right held)).2 (within_left held)
  rw [missing] at found
  exact ⟨r, ran, found⟩

/-! The table around one of its chains. -/

abbrev header (t : Ptr) (raw : RawHt α) : HtBlock :=
  ⟨t, Stored.valType α, raw.size, raw.sizemask, raw.used⟩

def others (slots : List Ptr) (raw : RawHt α) (idx : Nat) : Assn Ptr Block :=
  chainsAt (slots.set idx null) (raw.table.set idx [])

theorem open_ht {ht : Ptr} {raw : RawHt α} {F : Assn Ptr Block} {β : Type} {c : Proc β}
    {R : β → Assn Ptr Block} {idx : Nat} (inside : idx < raw.table.length)
    (next : ∀ (t : Ptr) (slots : List Ptr) (_ : slots.length = raw.table.length)
      (_ : idx < slots.length), Triple (cell ht (header t raw) * (cell t slots *
        (chainAt slots[idx] (raw.chain idx) * (others slots raw idx * F)))) c R) :
    Triple (htAt ht raw * F) c R := by
  refine .exists_mul fun t => .exists_mul fun slots => .of_fact_mul fun len => ?_
  have inSlots : idx < slots.length := len ▸ inside
  refine .of_le (le_of_eq ?_) (next t slots len inSlots)
  have chain : raw.chain idx = raw.table[idx] := by simp [RawHt.chain, inside]
  rw [chainsAt_split inSlots inside, chain, others, header]
  ac_rfl

theorem fill_ht {ht t p : Ptr} {raw : RawHt α} {slots : List Ptr} {idx used : Nat}
    {chain : List (HtEntry α)} (len : slots.length = raw.table.length)
    (inside : idx < raw.table.length) :
    chainAt p chain * (cell ht { header t raw with used := used } *
      (cell t (slots.set idx p) * others slots raw idx)) ≤
        htAt ht ({ raw.setChain idx chain with used := used } : RawHt α) := by
  refine le_iSup_of_le t (le_iSup_of_le (slots.set idx p) (le_fact_mul ?_ (le_of_eq ?_)))
  · simpa [RawHt.setChain] using len
  · rw [mul_left_comm, mul_left_comm (chainAt p chain), others,
      ← chainsAt_set (len ▸ inside) inside]
    rfl

theorem refill_ht {ht t : Ptr} {raw : RawHt α} {slots : List Ptr} {idx used : Nat}
    {chain : List (HtEntry α)} (len : slots.length = raw.table.length)
    (inside : idx < raw.table.length) (inSlots : idx < slots.length) :
    chainAt slots[idx] chain * (cell ht { header t raw with used := used } *
      (cell t slots * others slots raw idx)) ≤
        htAt ht ({ raw.setChain idx chain with used := used } : RawHt α) := by
  have filled : _ ≤ htAt ht ({ raw.setChain idx chain with used := used } : RawHt α) :=
    fill_ht (t := t) (p := slots[idx]) len inside
  rwa [List.set_getElem_self] at filled

/-! The operations. -/

section Operations
variable {malloc : Allocator Ptr Block} {ht key : Ptr} {raw : RawHt α} {k : Bytes}

theorem htUpsert_found (shape : raw.Shape) {e : HtEntry α}
    (found : HashTable.htFind raw k = some e) :
    Triple (htAt ht raw * cell key k) (htUpsert malloc ht key) fun out => ⨆ v : HtVal,
      fact (out.1 ≠ null ∧ out.2 = true) * (Stored.owns v e.val *
        openAt out.1 v (fun a => htAt ht (HashTable.htUpsert raw k a).1) * cell key k) := by
  have inside := shape.bucketOf_lt k
  refine open_ht inside fun t slots len inSlots => .load (htHash_step ?_)
  refine slot_step (i := raw.bucketOf k) inSlots ?_
  refine .call (findLoop_found found) fun r => .exists_mul fun v => .of_fact_mul fun nonzero => ?_
  rw [if_pos nonzero]
  refine .done (le_iSup_of_le v (le_fact_mul ⟨nonzero, rfl⟩ ?_))
  rw [mul_right_comm, mul_assoc (Stored.owns v e.val)]
  refine mul_le_mul_left (mul_le_mul_right (openAt_mul_le fun a => ?_) _) _
  rw [HashTable.htUpsert_of_some (assigned_eq found a)]
  exact refill_ht len inside inSlots

theorem htUpsert_new (ample : malloc.Ample) (shape : raw.Shape)
    (missing : HashTable.htFind raw k = none) :
    Triple (htAt ht raw * cell key k) (htUpsert malloc ht key) fun out =>
      fact (out.1 ≠ null ∧ out.2 = false) *
        (openAt out.1 .junk (fun a => htAt ht (HashTable.htUpsert raw k a).1) * cell key k) := by
  have inside := shape.bucketOf_lt k
  refine open_ht inside fun t slots len inSlots => .load (htHash_step ?_)
  refine slot_step (i := raw.bucketOf k) inSlots ?_
  refine .call (findLoop_missing missing) fun r => .of_fact_mul fun none => ?_
  rw [if_neg (not_not.mpr none)]
  refine .alloc ample fun new nonzero => ?_
  rw [if_neg nonzero]
  refine strdup_step ample fun copy _ => ?_
  refine slot_step (i := raw.bucketOf k) inSlots ?_
  refine .store (setSlot_step (i := raw.bucketOf k) inSlots (.store ?_))
  refine .done (le_fact_mul ⟨nonzero, rfl⟩ ?_)
  have fresh (a : α) : HashTable.htUpsert raw k a = _ :=
    HashTable.htUpsert_of_none (HashTable.chainAssign_none.mpr missing)
  simp only [fresh]
  refine le_trans (le_of_eq ?_) (mul_le_mul_left (le_trans
    (mul_le_mul_left (openAt_cons (k := copy) (q := slots[raw.bucketOf k])) _)
    (openAt_mul_le fun a => fill_ht (t := t) len inside)) _)
  simp only
  ac_rfl

/-! The growth of the table. -/

omit [Stored α] in
theorem relinkLoop_null (newTable : Ptr) (newSize : Nat) :
    relinkLoop newTable newSize null = pure () := by
  rw [relinkLoop, loop_eq]
  rfl

theorem relinkLoop_eq (newTable : Ptr) (newSize : Nat) {p : Ptr} (nonzero : p ≠ null) :
    relinkLoop newTable newSize p = (do
      let e ← load EntryBlock p
      let hash ← htHash e.key
      let head ← slot newTable (hash &&& (newSize - 1))
      store p { e with next := head }
      setSlot newTable (hash &&& (newSize - 1)) p
      relinkLoop newTable newSize e.next) := by
  rw [relinkLoop, loop_eq, if_neg nonzero]
  simp only [bind_assoc]
  rfl

theorem relinkLoop_spec {newTable : Ptr} {newSize : Nat} (room : ∀ x, x &&& (newSize - 1) < newSize)
    {p : Ptr} (es : List (HtEntry α)) {slots : List Ptr} {table : List (List (HtEntry α))}
    (len : slots.length = newSize) (tableLen : table.length = newSize) :
    Triple (chainAt p es * (cell newTable slots * chainsAt slots table))
      (relinkLoop newTable newSize p) fun _ => ⨆ slots' : List Ptr, fact (slots'.length = newSize) *
        (cell newTable slots' * chainsAt slots' (es.foldl (HashTable.relink newSize) table)) := by
  induction es generalizing p slots table with
  | nil =>
    refine .of_fact fun none => ?_
    rw [none, relinkLoop_null]
    exact .done (le_iSup_of_le slots (le_fact_mul len le_rfl))
  | cons e es ih =>
    refine .exists_mul fun k => .exists_mul fun v => .exists_mul fun q => ?_
    refine .nonzero p fun nonzero => ?_
    rw [relinkLoop_eq newTable newSize nonzero]
    obtain ⟨i, index⟩ : ∃ i, HashTable.htHash e.key &&& (newSize - 1) = i := ⟨_, rfl⟩
    have inside : i < newSize := index ▸ room _
    have inTable : i < table.length := tableLen ▸ inside
    refine .load (htHash_step ?_)
    simp only [index]
    have inSlots : i < slots.length := len ▸ inside
    refine slot_step inSlots (.store (setSlot_step inSlots ?_))
    rw [chainsAt_split inSlots inTable]
    have linked : HashTable.relink newSize table e = table.set i (e :: table[i]) := by
      simp [HashTable.relink, index, List.getD, inTable]
    have lenSet : (slots.set i p).length = newSize := (List.length_set ..).trans len
    have tableSet : (HashTable.relink newSize table e).length = newSize := by
      rw [linked, List.length_set, tableLen]
    refine .of_le ?_ (ih lenSet tableSet)
    rw [linked, chainsAt_set inSlots inTable p]
    have pushed : cell p (⟨k, v, slots[i]⟩ : EntryBlock) * (cell k e.key *
        (Stored.owns v e.val * chainAt slots[i] table[i])) ≤ chainAt p (e :: table[i]) :=
      chainAt_intro
    refine le_trans (le_of_eq ?_) (mul_le_mul_right (mul_le_mul_right (mul_le_mul_left pushed _) _) _)
    ac_rfl

theorem resizeLoop_eq (ht newTable : Ptr) (newSize i : Nat) :
    resizeLoop ht newTable newSize i = (do
      let h ← load HtBlock ht
      if i < h.size then
        let entry ← slot h.table i
        relinkLoop newTable newSize entry
        resizeLoop ht newTable newSize (i + 1)
      else return ()) := by
  rw [resizeLoop, loop_eq, bind_assoc]
  refine bind_congr fun h => ?_
  by_cases more : i < h.size
  · simp only [if_pos more, bind_assoc]
    rfl
  · simp only [if_neg more]
    rfl

theorem resizeLoop_spec {ht newTable : Ptr} {newSize : Nat} {h : HtBlock}
    (room : ∀ x, x &&& (newSize - 1) < newSize) {slots : List Ptr} (size : slots.length = h.size)
    {i : Nat} {rest : List (List (HtEntry α))} (count : i + rest.length = h.size)
    {newSlots : List Ptr} {table : List (List (HtEntry α))} (len : newSlots.length = newSize)
    (tableLen : table.length = newSize) :
    Triple (cell ht h * (cell h.table slots * (chainsAt (slots.drop i) rest *
        (cell newTable newSlots * chainsAt newSlots table))))
      (resizeLoop ht newTable newSize i) fun _ => ⨆ slots' : List Ptr,
        fact (slots'.length = newSize) * (cell ht h * (cell h.table slots * (cell newTable slots' *
          chainsAt slots' (rest.foldl (fun t c => c.foldl (HashTable.relink newSize) t) table)))) := by
  induction rest generalizing i newSlots table with
  | nil =>
    rw [resizeLoop_eq]
    refine .load ?_
    rw [if_neg (by simpa using count.ge),
      List.drop_eq_nil_of_le (size.trans_le (by simpa using count.ge)), chainsAt_nil, one_mul]
    exact .done (le_iSup_of_le newSlots (le_fact_mul len le_rfl))
  | cons c rest ih =>
    have more : i < h.size := by simp only [List.length_cons] at count; omega
    have inSlots : i < slots.length := size ▸ more
    rw [resizeLoop_eq]
    refine .load ?_
    rw [if_pos more, List.drop_eq_getElem_cons inSlots, chainsAt_cons]
    refine slot_step inSlots (.call (relinkLoop_spec room c len tableLen) fun _ => ?_)
    refine .exists_mul fun slots' => .of_fact_mul fun len' => ?_
    have tableLen' : (c.foldl (HashTable.relink newSize) table).length = newSize :=
      (HashTable.foldl_relink_length newSize c table).trans tableLen
    refine .of_le (le_of_eq ?_) (ih (by simp only [List.length_cons] at count; omega) len' tableLen')
    ac_rfl

theorem chainsAt_replicate (n : Nat) :
    chainsAt (List.replicate n null) (List.replicate n ([] : List (HtEntry α))) = 1 := by
  induction n with
  | zero => rfl
  | succ n ih =>
    rw [List.replicate_succ, List.replicate_succ, chainsAt_cons, chainAt_nil, ih, one_mul]

theorem htResize_spec {malloc : Allocator Ptr Block} (ample : malloc.Ample) {ht : Ptr}
    {raw : RawHt α} {newSize : Nat} (size : raw.table.length = raw.size)
    (room : ∀ x, x &&& (newSize - 1) < newSize) :
    Triple (htAt ht raw) (htResize malloc ht newSize)
      fun _ => htAt ht (HashTable.htResize raw newSize) := by
  rw [← bind_pure (htResize malloc ht newSize)]
  simp only [htResize, bind_assoc]
  refine .exists_ fun t => .exists_ fun slots => .of_fact fun len => .alloc ample fun new _ => ?_
  have chains : chainsAt slots raw.table = chainsAt (slots.drop 0) raw.table *
      chainsAt (List.replicate newSize null) (List.replicate newSize ([] : List (HtEntry α))) := by
    rw [chainsAt_replicate, mul_one]
    rfl
  rw [chains]
  have slotsLen : (List.replicate newSize null).length = newSize := List.length_replicate
  have tableLen : (List.replicate newSize ([] : List (HtEntry α))).length = newSize :=
    List.length_replicate
  refine .of_le (le_of_eq ?_) (.bind (resizeLoop_spec (h := header t raw) (i := 0) room
    (len.trans size) ((Nat.zero_add _).trans size) slotsLen tableLen) fun _ => ?_)
  · simp only [header]
    ac_rfl
  refine .exists_ fun slots' => .of_fact fun len' => .load (.free (.store (.done ?_)))
  refine le_iSup_of_le new (le_iSup_of_le slots' (le_fact_mul ?_ (le_of_eq ?_)))
  · rw [len', HashTable.htResize_table, HashTable.foldl_relink_length, List.length_replicate]
  · rfl

theorem load_ht {ht : Ptr} {raw : RawHt α} {F : Assn Ptr Block} {β : Type} {f : HtBlock → Proc β}
    {R : β → Assn Ptr Block} (next : ∀ t, Triple (htAt ht raw * F) (f (header t raw)) R) :
    Triple (htAt ht raw * F) (load HtBlock ht >>= f) R := by
  refine .exists_mul fun t => .exists_mul fun slots => .of_fact_mul fun len => .load ?_
  refine .of_le (mul_le_mul_left ?_ F) (next t)
  exact le_iSup_of_le t (le_iSup_of_le slots (le_fact_mul len le_rfl))

def grown (raw : RawHt α) (found : Bool) : RawHt α :=
  if !found && decide (4 * raw.used > 3 * raw.size) then HashTable.htResize raw (raw.size * 2) else raw

omit [Stored α] in
theorem grown_found {raw : RawHt α} {k : Bytes} {e : HtEntry α}
    (found : HashTable.htFind raw k = some e) (a : α) :
    grown (HashTable.htUpsert raw k a).1 true = HashTable.htSet raw k a := by
  have flag : (HashTable.htUpsert raw k a).2 = true := by
    rw [HashTable.htUpsert_of_some (assigned_eq found a)]
  rw [← flag]
  rfl

omit [Stored α] in
theorem grown_new {raw : RawHt α} {k : Bytes} (missing : HashTable.htFind raw k = none) (a : α) :
    grown (HashTable.htUpsert raw k a).1 false = HashTable.htSet raw k a := by
  have flag : (HashTable.htUpsert raw k a).2 = false := by
    rw [HashTable.htUpsert_of_none (HashTable.chainAssign_none.mpr missing)]
  rw [← flag]
  rfl

theorem growIfLoaded_spec {malloc : Allocator Ptr Block} (ample : malloc.Ample) {ht : Ptr}
    {raw : RawHt α} (shape : raw.Shape) (found : Bool) :
    Triple (htAt ht raw) (growIfLoaded malloc ht found) fun _ => htAt ht (grown raw found) := by
  rw [← mul_one (htAt ht raw)]
  refine load_ht fun t => ?_
  rw [mul_one, grown]
  by_cases grow : (!found && decide (4 * raw.used > 3 * raw.size)) = true
  · rw [if_pos grow, if_pos grow]
    have pow : ∃ n, raw.size * 2 = 2 ^ (n + 2) := by
      obtain ⟨n, eq⟩ := shape.pow
      exact ⟨n + 1, by rw [eq, ← pow_succ]⟩
    exact htResize_spec ample shape.length_eq (HashTable.land_lt pow)
  · rw [if_neg grow, if_neg grow]
    exact .done le_rfl

theorem putStr_end (ample : malloc.Ample) {entry value : Ptr} {v : HtVal} {b : Bytes}
    {whole : Bytes → Assn Ptr Block} {β : Type} {f : Unit → Proc β} {R : β → Assn Ptr Block}
    (next : Triple (whole b * cell value b) (f ()) R) :
    Triple (openAt entry v whole * cell value b) (do
      let copy ← strdup malloc value
      let e ← load EntryBlock entry
      store entry { e with val := .str copy }
      f ()) R := by
  refine open_value fun k q F closed => strdup_step ample fun copy _ => .load (.store ?_)
  refine .of_le ?_ next
  have owned : cell copy b ≤ (Stored.owns (.str copy) b : Assn Ptr Block) :=
    le_iSup_of_le copy (le_fact_mul rfl le_rfl)
  calc _ = cell entry (⟨k, .str copy, q⟩ : EntryBlock) * (cell copy b * F) * cell value b := by ac_rfl
    _ ≤ _ := mul_le_mul_left (le_trans (mul_le_mul_right (mul_le_mul_left owned F) _)
        (closed (.str copy) b)) _

theorem putStr_found (ample : malloc.Ample) {entry value : Ptr} (v : HtVal) (old b : Bytes)
    (whole : Bytes → Assn Ptr Block) :
    Triple (Stored.owns v old * openAt entry v whole * cell value b)
      (putStr malloc entry value true) fun _ => whole b * cell value b := by
  rw [mul_assoc]
  refine .exists_mul fun s => .of_fact_mul fun str => ?_
  rw [mul_left_comm]
  refine open_value fun k q F closed => ?_
  rw [← bind_pure (putStr malloc entry value true)]
  simp only [putStr, freeFound, if_true, bind_assoc]
  refine freeStr_step str (.of_le ?_ (putStr_end (v := v) ample (.done le_rfl)))
  rw [← mul_assoc]
  exact mul_le_mul_left (openAt_intro closed) _

theorem putStr_new (ample : malloc.Ample) {entry value : Ptr} (b : Bytes)
    (whole : Bytes → Assn Ptr Block) :
    Triple (openAt entry .junk whole * cell value b)
      (putStr malloc entry value false) fun _ => whole b * cell value b := by
  rw [← bind_pure (putStr malloc entry value false)]
  simp only [putStr, freeFound, Bool.false_eq_true, if_false, pure_bind, bind_assoc]
  exact putStr_end ample (.done le_rfl)

/-- Whatever puts a value into an entry, found or new, and leaves what else it needs. -/
theorem set_spec (ample : malloc.Ample) (shape : raw.Shape) (a : α) (put : Ptr → Bool → Proc Unit)
    {F : Assn Ptr Block}
    (found : ∀ entry v (old : α) whole, Triple
      (Stored.owns v old * openAt entry v whole * F) (put entry true) fun _ => whole a * F)
    (new : ∀ entry whole, Triple
      (openAt entry .junk whole * F) (put entry false) fun _ => whole a * F) :
    Triple (htAt ht raw * (cell key k * F)) (do
        let (entry, found) ← htUpsert malloc ht key
        if entry = null then return false
        else
          put entry found
          growIfLoaded malloc ht found
          return true)
      fun ok => fact (ok = true) * (htAt ht (HashTable.htSet raw k a) * (cell key k * F)) := by
  cases held : HashTable.htFind raw k with
  | some e =>
    refine .call (htUpsert_found shape held) fun out => .exists_mul fun v =>
      .of_fact_mul fun case => ?_
    obtain ⟨entry, flag⟩ := out
    obtain ⟨nonzero, rfl⟩ := case
    simp only [if_neg nonzero]
    refine .call (found entry v e.val fun a => htAt ht (HashTable.htUpsert raw k a).1) fun _ => ?_
    refine .call (growIfLoaded_spec ample (HashTable.htUpsert_shape shape k a).1 true) fun _ => ?_
    rw [grown_found held]
    refine .done (le_fact_mul rfl (le_of_eq ?_))
    ac_rfl
  | none =>
    refine .call (htUpsert_new ample shape held) fun out => .of_fact_mul fun case => ?_
    obtain ⟨entry, flag⟩ := out
    obtain ⟨nonzero, rfl⟩ := case
    simp only [if_neg nonzero]
    refine .call (new entry fun a => htAt ht (HashTable.htUpsert raw k a).1) fun _ => ?_
    refine .call (growIfLoaded_spec ample (HashTable.htUpsert_shape shape k a).1 false) fun _ => ?_
    rw [grown_new held]
    refine .done (le_fact_mul rfl (le_of_eq ?_))
    ac_rfl

theorem htSetStr_spec (ample : malloc.Ample) {raw : RawHt Bytes} (shape : raw.Shape) {value : Ptr}
    (b : Bytes) : Triple (htAt ht raw * (cell key k * cell value b)) (htSetStr malloc ht key value)
      fun ok => fact (ok = true) *
        (htAt ht (HashTable.htSet raw k b) * (cell key k * cell value b)) := by
  refine load_ht fun t => ?_
  have type : ¬ (header t raw).valType ≠ .str := not_not.mpr rfl
  rw [if_neg type]
  exact set_spec ample shape b (putStr malloc · value ·)
    (fun entry v old whole => putStr_found ample v old b whole)
    fun entry whole => putStr_new ample b whole

theorem putI64_spec {entry : Ptr} {v : HtVal} (n : Int) (whole : Int → Assn Ptr Block) :
    Triple (openAt entry v whole * 1) (putI64 entry n) fun _ => whole n * 1 := by
  rw [← bind_pure (putI64 entry n)]
  simp only [putI64, bind_assoc]
  refine open_value fun k q F closed => .load (.store (.done ?_))
  rw [← mul_assoc]
  refine mul_le_mul_left (le_trans (mul_le_mul_right ?_ _) (closed (.i64 n) n)) 1
  exact le_fact_mul rfl le_rfl

theorem htSetI64_spec (ample : malloc.Ample) {raw : RawHt Int} (shape : raw.Shape) (n : Int) :
    Triple (htAt ht raw * cell key k) (htSetI64 malloc ht key n)
      fun ok => fact (ok = true) * (htAt ht (HashTable.htSet raw k n) * cell key k) := by
  refine load_ht fun t => ?_
  have type : ¬ (header t raw).valType ≠ .i64 := not_not.mpr rfl
  rw [if_neg type, ← mul_one (cell key k)]
  refine set_spec ample shape n (fun entry _ => putI64 entry n) (fun entry v old whole => ?_)
    fun entry whole => putI64_spec n whole
  rw [mul_assoc]
  exact .of_fact fun _ => putI64_spec n whole

end Operations

theorem within_ht {h : Heap Ptr Block} {ht : Ptr} {raw : RawHt α}
    (held : h ∈ within (htAt ht raw)) : ∃ t, ∃ slots : List Ptr,
    h.lookup ht = some (Layout.put (header t raw)) ∧ h.lookup t = some (Layout.put slots) ∧
      ∀ i < raw.table.length, ∃ _ : i < slots.length, h ∈ within (chainAt slots[i] (raw.chain i)) := by
  obtain ⟨t, held⟩ := within_iSup.mp held
  obtain ⟨slots, held⟩ := within_iSup.mp held
  obtain ⟨len, held⟩ := within_fact held
  have rest := within_right held
  refine ⟨t, slots, (within_pts (within_left held)).2, (within_pts (within_left rest)).2,
    fun i inside => ⟨len ▸ inside, ?_⟩⟩
  have chains := within_right rest
  rw [chainsAt_split (len ▸ inside) inside] at chains
  have same : raw.chain i = raw.table[i] := by simp [RawHt.chain, inside]
  rw [same]
  exact within_left chains

/-! Deletion. -/

section Deletion
variable {malloc : Allocator Ptr Block} {ht key : Ptr} {raw : RawHt α} {k : Bytes} {idx : Nat}

omit [Stored α] in
theorem delLoop_null (prev : Ptr) : delLoop ht key idx (prev, null) = pure false := by
  rw [delLoop, loop_eq]
  rfl

theorem delLoop_eq (prev : Ptr) {p : Ptr} (nonzero : p ≠ null) :
    delLoop ht key idx (prev, p) = load EntryBlock p >>= fun e => strcmpEq e.key key >>= fun same =>
      if same then unlink ht idx prev p >>= fun _ => pure true
      else delLoop ht key idx (p, e.next) := by
  rw [delLoop, loop_eq]
  simp only [if_neg nonzero, bind_assoc]
  refine bind_congr fun e => bind_congr fun same => ?_
  cases same with
  | false => rfl
  | true =>
    simp only [if_true, bind_assoc]
    rfl

theorem delLoop_missing {m : Memory Ptr Block} {prev p : Ptr} {es : List (HtEntry α)}
    (here : m.heap.lookup key = some (Layout.put k)) (chain : m.heap ∈ within (chainAt p es))
    (missing : HashTable.chainFind k es = none) :
    delLoop ht key idx (prev, p) m = some (.ok (false, m)) := by
  induction es generalizing prev p with
  | nil =>
    rw [chainAt, ← mul_one (fact (p = null) : Assn Ptr Block)] at chain
    obtain rfl := (within_fact chain).1
    rw [delLoop_null, pure_run]
  | cons e es ih =>
    obtain ⟨nonzero, kp, v, q, entry, chars, -, rest⟩ := within_chain_cons chain
    rw [HashTable.chainFind] at missing
    split at missing
    · cases missing
    · rename_i other
      rw [delLoop_eq prev nonzero, bind_run (load_run entry), bind_run (strcmpEq_run chars here),
        if_neg (by simpa using other)]
      exact ih rest missing

theorem release_spec {p : Ptr} (kp q : Ptr) (v : HtVal) (e : HtEntry α) {h : HtBlock}
    (type : h.valType = Stored.valType α) :
    Triple (cell p (⟨kp, v, q⟩ : EntryBlock) * (cell kp e.key * Stored.owns v e.val) * cell ht h)
      (release ht p kp) fun _ => cell ht { h with used := h.used - 1 } := by
  rw [← bind_pure (release ht p kp)]
  simp only [release, bind_assoc]
  refine .free (.call (Stored.freed ht p h ⟨kp, v, q⟩ e.val type) fun _ => ?_)
  exact .free (.load (.store (.done (le_of_splits rfl))))

theorem delLoop_behind {prev p pk : Ptr} {pv : HtVal} {h : HtBlock}
    (type : h.valType = Stored.valType α) {es es' : List (HtEntry α)}
    (found : HashTable.chainUnlink k es = some es') :
    Triple (cell prev (⟨pk, pv, p⟩ : EntryBlock) * (chainAt p es * (cell ht h * cell key k)))
      (delLoop ht key idx (prev, p)) fun ok => fact (ok = true) * ⨆ q : Ptr,
        cell prev (⟨pk, pv, q⟩ : EntryBlock) * (chainAt q es' *
          (cell ht { h with used := h.used - 1 } * cell key k)) := by
  induction es generalizing prev p pk pv es' with
  | nil => simp [HashTable.chainUnlink] at found
  | cons e es ih =>
    rw [mul_left_comm]
    refine .exists_mul fun kp => .exists_mul fun v => .exists_mul fun q => ?_
    refine .nonzero p fun nonzero => .nonzero prev fun behind => ?_
    rw [delLoop_eq prev nonzero]
    refine .load (strcmpEq_step ?_)
    rw [HashTable.chainUnlink] at found
    by_cases same : e.key = k
    · rw [if_pos same] at found
      obtain rfl := Option.some.inj found
      rw [if_pos (decide_eq_true same)]
      simp only [unlink, bypass, if_neg behind, bind_assoc]
      refine .load (.load (.store (.call (release_spec kp q v e type) fun _ => ?_)))
      refine .done (le_fact_mul rfl (le_iSup_of_le q (le_of_eq ?_)))
      ac_rfl
    · rw [if_neg same] at found
      rw [if_neg (by simpa using same)]
      obtain ⟨rest, further, rfl⟩ :
          ∃ rest, HashTable.chainUnlink k es = some rest ∧ e :: rest = es' := by
        simpa using found
      have step : Triple (cell p (⟨kp, v, q⟩ : EntryBlock) * (chainAt q es * (cell ht h * cell key k)))
        (delLoop ht key idx (p, q)) _ := ih further
      refine .tail step fun ok => ?_
      rw [mul_assoc, Quantale.iSup_mul_distrib, mul_one]
      refine mul_le_mul_right (iSup_le fun q' => le_iSup_of_le p ?_) _
      have linked : cell p (⟨kp, v, q'⟩ : EntryBlock) * (cell kp e.key *
        (Stored.owns v e.val * chainAt q' rest)) ≤ chainAt p (e :: rest) := chainAt_intro
      refine le_trans (le_of_eq ?_) (mul_le_mul_right (mul_le_mul_left linked _) _)
      ac_rfl

theorem delLoop_head {t : Ptr} {slots : List Ptr} (len : slots.length = raw.table.length)
    (inside : idx < raw.table.length) (inSlots : idx < slots.length) {chain : List (HtEntry α)}
    (found : HashTable.chainUnlink k (raw.chain idx) = some chain) :
    Triple (cell ht (header t raw) * (cell t slots *
        (chainAt slots[idx] (raw.chain idx) * (others slots raw idx * cell key k))))
      (delLoop ht key idx (null, slots[idx])) fun ok => fact (ok = true) *
        (htAt ht ({ raw.setChain idx chain with used := raw.used - 1 } : RawHt α) * cell key k) := by
  cases held : raw.chain idx with
  | nil => simp [held, HashTable.chainUnlink] at found
  | cons e es =>
    rw [mul_left_comm (cell t slots), mul_left_comm]
    refine .exists_mul fun kp => .exists_mul fun v => .exists_mul fun q => ?_
    refine .nonzero slots[idx] fun nonzero => ?_
    rw [delLoop_eq null nonzero]
    refine .load (strcmpEq_step ?_)
    rw [held, HashTable.chainUnlink] at found
    by_cases same : e.key = k
    · rw [if_pos same] at found
      obtain rfl := Option.some.inj found
      rw [if_pos (decide_eq_true same)]
      simp only [unlink, bypass, if_true, bind_assoc]
      have type : (header t raw).valType = Stored.valType α := rfl
      refine .load (.load (setSlot_step inSlots (.call (release_spec kp q v e type) fun _ => ?_)))
      refine .done (le_fact_mul rfl ?_)
      refine le_trans (le_of_eq ?_) (mul_le_mul_left (fill_ht (t := t) (p := q) len inside) _)
      ac_rfl
    · rw [if_neg same] at found
      rw [if_neg (by simpa using same)]
      obtain ⟨rest, further, rfl⟩ :
          ∃ rest, HashTable.chainUnlink k es = some rest ∧ e :: rest = chain := by
        simpa using found
      have step : Triple (cell slots[idx] (⟨kp, v, q⟩ : EntryBlock) *
        (chainAt q es * (cell ht (header t raw) * cell key k)))
        (delLoop ht key idx (slots[idx], q)) _ := delLoop_behind rfl further
      refine .tail step fun ok => ?_
      rw [mul_assoc, Quantale.iSup_mul_distrib, mul_one]
      refine mul_le_mul_right (iSup_le fun q' => ?_) _
      have linked : cell slots[idx] (⟨kp, v, q'⟩ : EntryBlock) * (cell kp e.key *
        (Stored.owns v e.val * chainAt q' rest)) ≤ chainAt slots[idx] (e :: rest) := chainAt_intro
      refine le_trans (le_of_eq ?_) (mul_le_mul_left (le_trans (mul_le_mul_left linked _)
        (refill_ht (t := t) len inside inSlots)) _)
      ac_rfl

theorem htDel_spec (shape : raw.Shape) :
    Triple (htAt ht raw * cell key k) (htDel ht key) fun ok =>
      fact (ok = (HashTable.htDel raw k).2) * (htAt ht (HashTable.htDel raw k).1 * cell key k) := by
  have inside := shape.bucketOf_lt k
  cases found : HashTable.chainUnlink k (raw.chain (raw.bucketOf k)) with
  | some chain =>
    rw [HashTable.htDel_of_some found]
    refine open_ht inside fun t slots len inSlots => .load (htHash_step ?_)
    refine slot_step (i := raw.bucketOf k) inSlots ?_
    exact delLoop_head len inside inSlots found
  | none =>
    rw [HashTable.htDel_of_none found]
    refine .of_reads fun m held => ⟨false, ?_, rfl⟩
    obtain ⟨t, slots, fields, array, chains⟩ := within_ht (within_left held)
    obtain ⟨inSlots, chain⟩ := chains (raw.bucketOf k) inside
    have here := (within_pts (within_right held)).2
    rw [htDel, bind_run (load_run fields), bind_run (htHash_run here)]
    exact (bind_run (slot_run array inSlots)).trans
      (delLoop_missing here chain (HashTable.chainUnlink_none.mp found))

/-! The end of a table. -/

theorem freeChain_null (ht : Ptr) : freeChain ht null = pure () := by
  rw [freeChain, loop_eq]
  rfl

theorem freeChain_eq (ht : Ptr) {p : Ptr} (nonzero : p ≠ null) : freeChain ht p = (do
    let e ← load EntryBlock p
    free e.key
    htValFree ht p
    let e ← load EntryBlock p
    free p
    freeChain ht e.next) := by
  rw [freeChain, loop_eq, if_neg nonzero]
  simp only [bind_assoc]
  rfl

theorem freeChain_spec {h : HtBlock} (type : h.valType = Stored.valType α) {p : Ptr}
    (es : List (HtEntry α)) :
    Triple (chainAt p es * cell ht h) (freeChain ht p) fun _ => cell ht h := by
  induction es generalizing p with
  | nil =>
    refine .of_fact fun none => ?_
    rw [none, freeChain_null]
    exact .done le_rfl
  | cons e es ih =>
    refine .exists_mul fun kp => .exists_mul fun v => .exists_mul fun q => ?_
    refine .nonzero p fun nonzero => ?_
    rw [freeChain_eq ht nonzero]
    refine .load (.free (.call (Stored.freed ht p h ⟨kp, v, q⟩ e.val type) fun _ => ?_))
    refine .load (.free (.tail ih fun _ => ?_))
    exact le_of_splits rfl

theorem freeLoop_eq (ht : Ptr) (i : Nat) : freeLoop ht i = (do
    let h ← load HtBlock ht
    if i < h.size then
      let entry ← slot h.table i
      freeChain ht entry
      freeLoop ht (i + 1)
    else return ()) := by
  rw [freeLoop, loop_eq, bind_assoc]
  refine bind_congr fun h => ?_
  by_cases more : i < h.size
  · simp only [if_pos more, bind_assoc]
    rfl
  · simp only [if_neg more]
    rfl

theorem freeLoop_spec {h : HtBlock} (type : h.valType = Stored.valType α) {slots : List Ptr}
    (size : slots.length = h.size) {i : Nat} {rest : List (List (HtEntry α))}
    (count : i + rest.length = h.size) :
    Triple (cell ht h * (cell h.table slots * chainsAt (slots.drop i) rest)) (freeLoop ht i)
      fun _ => cell ht h * cell h.table slots := by
  induction rest generalizing i with
  | nil =>
    have done : h.size ≤ i := by simpa using count.ge
    rw [freeLoop_eq, List.drop_eq_nil_of_le (size.trans_le done), chainsAt_nil, mul_one]
    refine .load ?_
    rw [if_neg (not_lt.mpr done)]
    exact .done le_rfl
  | cons c rest ih =>
    have more : i < h.size := by
      rw [← count, List.length_cons]
      omega
    have inSlots : i < slots.length := size ▸ more
    rw [freeLoop_eq, List.drop_eq_getElem_cons inSlots, chainsAt_cons]
    refine .load ?_
    rw [if_pos more]
    refine slot_step inSlots (.call (freeChain_spec type c) fun _ => ?_)
    refine .tail (ih (i := i + 1) ?_) fun _ => ?_
    · rw [← count, List.length_cons]
      omega
    · exact le_of_splits rfl

theorem htFree_spec (shape : raw.Shape) : Triple (htAt ht raw) (htFree ht) fun _ => 1 := by
  rw [← bind_pure (htFree ht)]
  simp only [htFree, bind_assoc]
  refine .exists_ fun t => .exists_ fun slots => .of_fact fun len => ?_
  have freed : Triple (cell ht (header t raw) * (cell t slots * chainsAt (slots.drop 0) raw.table))
      (freeLoop ht 0) fun _ => cell ht (header t raw) * cell t slots :=
    freeLoop_spec rfl (len.trans shape.length_eq) ((Nat.zero_add _).trans shape.length_eq)
  exact freed.bind fun _ => .load (.free (.free (.done le_rfl)))

theorem htCreate_spec (ample : malloc.Ample) :
    Triple 1 (htCreate malloc (Stored.valType α)) fun ht =>
      fact (ht ≠ null) * htAt ht (HashTable.htCreate : RawHt α) := by
  refine .alloc ample fun ht nonzero => .alloc ample fun t _ => .store (.done ?_)
  refine le_fact_mul nonzero (le_iSup_of_le t ?_)
  refine le_iSup_of_le (List.replicate HashTable.htInitialSize null) (le_fact_mul rfl (le_of_eq ?_))
  rw [HashTable.htCreate, chainsAt_replicate]

end Deletion

/-! What can be read off a heap with the table in it, whatever the key points into. -/

section Reads
variable {m : Memory Ptr Block} {ht key : Ptr} {raw : RawHt α} {k : Bytes}

theorem htFind_run (shape : raw.Shape) (table : m.heap ∈ within (htAt ht raw))
    (here : m.heap.lookup key = some (Layout.put k)) :
    ∃ r, htFind ht key m = some (.ok (r, m)) ∧ Found m.heap r (HashTable.htFind raw k) := by
  obtain ⟨t, slots, fields, array, chains⟩ := within_ht table
  obtain ⟨inSlots, chain⟩ := chains (raw.bucketOf k) (shape.bucketOf_lt k)
  obtain ⟨r, ran, found⟩ := findLoop_run here chain
  refine ⟨r, ?_, found⟩
  rw [htFind, bind_run (load_run fields), bind_run (htHash_run here)]
  exact (bind_run (slot_run array inSlots)).trans ran

theorem htExists_run (shape : raw.Shape) (table : m.heap ∈ within (htAt ht raw))
    (here : m.heap.lookup key = some (Layout.put k)) :
    htExists ht key m = some (.ok (HashTable.htExists raw k, m)) := by
  obtain ⟨r, ran, found⟩ := htFind_run shape table here
  rw [htExists, bind_run ran, pure_run, HashTable.htExists]
  cases held : HashTable.htFind raw k with
  | none =>
    rw [held] at found
    simp [show r = null from found]
  | some e =>
    rw [held] at found
    simp [found.1]

theorem htExists_spec (shape : raw.Shape) : Triple (htAt ht raw * cell key k) (htExists ht key)
    fun held => fact (held = HashTable.htExists raw k) * (htAt ht raw * cell key k) :=
  .of_reads fun _ held => ⟨_, htExists_run shape (within_left held)
    (within_pts (within_right held)).2, rfl⟩

theorem htGetStr_run {raw : RawHt Bytes} (shape : raw.Shape) (table : m.heap ∈ within (htAt ht raw))
    (here : m.heap.lookup key = some (Layout.put k)) : ∃ r, htGetStr ht key m = some (.ok (r, m)) ∧
      ((r = null ∧ HashTable.htGet raw k = none) ∨ (r ≠ null ∧ ∃ b, HashTable.htGet raw k = some b ∧
        m.heap.lookup r = some (Layout.put b))) := by
  obtain ⟨t, slots, fields, -⟩ := within_ht table
  obtain ⟨r, ran, found⟩ := htFind_run shape table here
  have type : ¬ (header t raw).valType ≠ .str := not_not.mpr rfl
  rw [htGetStr, bind_run (load_run fields), if_neg type, bind_run ran, HashTable.htGet]
  cases held : HashTable.htFind raw k with
  | none =>
    rw [held] at found
    exact ⟨null, by rw [if_pos (show r = null from found), pure_run], Or.inl ⟨rfl, rfl⟩⟩
  | some e =>
    rw [held] at found
    obtain ⟨nonzero, kp, v, q, entry, owned⟩ := found
    obtain ⟨s, owned⟩ := within_iSup.mp owned
    obtain ⟨str, owned⟩ := within_fact owned
    obtain ⟨some, value⟩ := within_pts owned
    refine ⟨s, ?_, Or.inr ⟨some, e.val, rfl, value⟩⟩
    rw [if_neg nonzero, bind_run (load_run entry), str]
    rfl

theorem htGetI64_run {raw : RawHt Int} (shape : raw.Shape) (table : m.heap ∈ within (htAt ht raw))
    (here : m.heap.lookup key = some (Layout.put k)) : ∃ r, htGetI64 ht key m = some (.ok (r, m)) ∧
      ((r = null ∧ HashTable.htGet raw k = none) ∨ (r ≠ null ∧ ∃ n, HashTable.htGet raw k = some n ∧
        readI64 r m = some (.ok (n, m)))) := by
  obtain ⟨t, slots, fields, -⟩ := within_ht table
  obtain ⟨r, ran, found⟩ := htFind_run shape table here
  have type : ¬ (header t raw).valType ≠ .i64 := not_not.mpr rfl
  refine ⟨r, by rw [htGetI64, bind_run (load_run fields), if_neg type, ran], ?_⟩
  rw [HashTable.htGet]
  cases held : HashTable.htFind raw k with
  | none =>
    rw [held] at found
    exact Or.inl ⟨found, rfl⟩
  | some e =>
    rw [held] at found
    obtain ⟨nonzero, kp, v, q, entry, owned⟩ := found
    have eq : v = .i64 e.val := by
      rw [← mul_one (Stored.owns v e.val : Assn Ptr Block)] at owned
      exact (within_fact owned).1
    refine Or.inr ⟨nonzero, e.val, rfl, ?_⟩
    rw [readI64, bind_run (load_run entry), eq]
    rfl

end Reads

end Layout

end ByteKV.TableLayout
