import ByteKV.Database

/-! The tables of ht.c and db.c when memory runs short. A string or an array that could
not be allocated is `none`, as is the outcome of a call that reads through it; every call
that allocates takes what malloc, strdup and calloc answer. -/
namespace ByteKV.HeapTable
open HashTable Database ExpiringLog

/-- `ht_entry_t`; the key is `none` for NULL. -/
structure HeapEntry (ν : Type) where
  key : Option Bytes
  val : ν
  deriving DecidableEq, Repr

/-- `ht_t`; the table is `none` for NULL. -/
structure HeapHt (ν : Type) where
  table : Option (List (List (HeapEntry ν)))
  size : Nat
  sizemask : Nat
  used : Nat
  deriving DecidableEq, Repr

/-- What the allocations of one `ht_set_str` or `ht_set_i64` answer: malloc of the entry,
strdup of the key and of the value, calloc of a larger table. -/
structure SetIo where
  entry : Bool := true
  key : Bool := true
  value : Bool := true
  table : Bool := true
  deriving DecidableEq, Repr

variable {α ν : Type}

/-! Chains: a comparison with a key that is NULL ends the walk, and the program. -/

def chainFind (key : Bytes) : List (HeapEntry ν) → Option (Option (HeapEntry ν))
  | [] => some none
  | e :: next =>
      match e.key with
      | none => none
      | some k => if k = key then some (some e) else chainFind key next

def chainAssign (key : Bytes) (v : ν) : List (HeapEntry ν) → Option (Option (List (HeapEntry ν)))
  | [] => some none
  | e :: next =>
      match e.key with
      | none => none
      | some k =>
          if k = key then some (some ({ e with val := v } :: next))
          else (chainAssign key v next).map (·.map (e :: ·))

def chainUnlink (key : Bytes) : List (HeapEntry ν) → Option (Option (List (HeapEntry ν)))
  | [] => some none
  | e :: next =>
      match e.key with
      | none => none
      | some k =>
          if k = key then some (some next) else (chainUnlink key next).map (·.map (e :: ·))

/-! The functions of ht.c. -/

def HeapHt.bucketOf (ht : HeapHt ν) (key : Bytes) : Nat := htHash key &&& ht.sizemask

/-- The inner `none` is the NULL of `ht_upsert`. -/
def htUpsert (io : SetIo) (ht : HeapHt ν) (key : Bytes) (v : ν) :
    Option (Option (HeapHt ν × Bool)) :=
  match ht.table with
  | none => none
  | some table =>
      let index := ht.bucketOf key
      match chainAssign key v (table.getD index []) with
      | none => none
      | some (some chain) => some (some ({ ht with table := some (table.set index chain) }, true))
      | some none =>
          if io.entry = false then some none
          else
            let newEntry : HeapEntry ν := ⟨if io.key then some key else none, v⟩
            some (some ({ ht with
              table := some (table.set index (newEntry :: table.getD index []))
              used := ht.used + 1 }, false))

def relink (newSize : Nat) (newTable : Option (List (List (HeapEntry ν)))) (e : HeapEntry ν) :
    Option (Option (List (List (HeapEntry ν)))) :=
  match e.key, newTable with
  | some key, some table =>
      let newIdx := htHash key &&& (newSize - 1)
      some (some (table.set newIdx (e :: table.getD newIdx [])))
  | _, _ => none

def htResize (io : SetIo) (ht : HeapHt ν) (newSize : Nat) : Option (HeapHt ν) :=
  match ht.table with
  | none => none
  | some table =>
      let newTable := if io.table then some (List.replicate newSize []) else none
      (table.flatten.foldlM (relink newSize) newTable).map fun newTable =>
        { table := newTable, size := newSize, sizemask := newSize - 1, used := ht.used }

def htSet (io : SetIo) (ht : HeapHt ν) (key : Bytes) (v : ν) : Option (HeapHt ν × Bool) :=
  match htUpsert io ht key v with
  | none => none
  | some none => some (ht, false)
  | some (some (ht, found)) =>
      let needResize := !found && decide (4 * ht.used > 3 * ht.size)
      if needResize then (htResize io ht (ht.size * 2)).map (·, true) else some (ht, true)

/-- The value that is stored may be NULL. -/
def htSetStr (io : SetIo) (ht : HeapHt (Option Bytes)) (key value : Bytes) :
    Option (HeapHt (Option Bytes) × Bool) :=
  htSet io ht key (if io.value then some value else none)

def htExists (ht : HeapHt ν) (key : Bytes) : Option Bool :=
  ht.table.bind fun table => (chainFind key (table.getD (ht.bucketOf key) [])).map (·.isSome)

def htDel (ht : HeapHt ν) (key : Bytes) : Option (HeapHt ν × Bool) :=
  match ht.table with
  | none => none
  | some table =>
      let index := ht.bucketOf key
      match chainUnlink key (table.getD index []) with
      | none => none
      | some none => some (ht, false)
      | some (some chain) =>
          some ({ ht with table := some (table.set index chain), used := ht.used - 1 }, true)

/-! The functions of db.c. -/

structure HeapDb where
  keyspace : HeapHt (Option Bytes)
  expires : HeapHt Int
  deriving DecidableEq, Repr

def dbSet (io : SetIo) (db : HeapDb) (key value : Bytes) : Option (HeapDb × Bool) :=
  (htSetStr io db.keyspace key value).map fun (keyspace, ok) =>
    ({ db with keyspace := keyspace }, ok)

/-- The two records are for the calls on the keyspace and on the expires table. -/
def dbSetex (io io' : SetIo) (db : HeapDb) (key value : Bytes) (expireAt : Int) :
    Option (HeapDb × Bool) :=
  match htSetStr io db.keyspace key value with
  | none => none
  | some (keyspace, false) => some ({ db with keyspace := keyspace }, false)
  | some (keyspace, true) =>
      if expireAt > 0 then
        match htSet io' db.expires key expireAt with
        | none => none
        | some (expires, false) =>
            (htDel keyspace key).map fun (keyspace, _) => (⟨keyspace, expires⟩, false)
        | some (expires, true) => some (⟨keyspace, expires⟩, true)
      else some ({ db with keyspace := keyspace }, true)

def dbKeyExpire (io : SetIo) (db : HeapDb) (key : Bytes) (expireAt : Int) : Option (HeapDb × Bool) :=
  if expireAt ≤ 0 then some (db, false)
  else match htExists db.keyspace key with
    | none => none
    | some false => some (db, false)
    | some true =>
        (htSet io db.expires key expireAt).map fun (expires, ok) => ({ db with expires := expires }, ok)

/-! A table in which nothing is missing. -/

def image (f : Bytes → α → ν) (e : HtEntry α) : HeapEntry ν := ⟨some e.key, f e.key e.val⟩

def imageHt (f : Bytes → α → ν) (ht : RawHt α) : HeapHt ν where
  table := some (ht.table.map (List.map (image f)))
  size := ht.size
  sizemask := ht.sizemask
  used := ht.used

section Image
variable {f : Bytes → α → ν}

theorem imageHt_congr {g : Bytes → α → ν} {ht : RawHt α}
    (same : ∀ e ∈ ht.entries, f e.key e.val = g e.key e.val) : imageHt f ht = imageHt g ht := by
  have table : ht.table.map (List.map (image f)) = ht.table.map (List.map (image g)) := by
    refine List.map_congr_left fun chain mem => List.map_congr_left fun e he => ?_
    rw [image, image, same e (List.mem_flatten.mpr ⟨chain, mem, he⟩)]
  rw [imageHt, table]
  rfl

theorem chainFind_image (key : Bytes) (chain : List (HtEntry α)) :
    chainFind key (chain.map (image f)) = some ((HashTable.chainFind key chain).map (image f)) := by
  induction chain with
  | nil => rfl
  | cons e next ih =>
    simp only [List.map_cons, chainFind, HashTable.chainFind, image, ih]
    split <;> rfl

def put (f : Bytes → α → ν) (key : Bytes) (v : ν) : Bytes → α → ν :=
  fun k a => if k = key then v else f k a

theorem image_put_of_ne {key : Bytes} {v : ν} {e : HtEntry α} (ne : e.key ≠ key) :
    image (put f key v) e = image f e := by
  rw [image, image, put, if_neg ne]

theorem chainAssign_put (key : Bytes) (v : ν) (a : α) {chain : List (HtEntry α)}
    (distinct : (chain.map HtEntry.key).Nodup) :
    chainAssign key v (chain.map (image f)) =
      some ((HashTable.chainAssign key a chain).map (·.map (image (put f key v)))) := by
  induction chain with
  | nil => rfl
  | cons e next ih =>
    obtain ⟨fresh, distinct⟩ := List.nodup_cons.mp distinct
    by_cases same : e.key = key
    · have rest : next.map (image f) = next.map (image (put f key v)) := by
        refine List.map_congr_left fun e' mem => (image_put_of_ne fun eq => fresh ?_).symm
        exact same.trans eq.symm ▸ List.mem_map_of_mem mem
      simp only [List.map_cons, chainAssign, HashTable.chainAssign, image, same, if_true,
        Option.map_some, put]
      rw [rest]
    · have kept := image_put_of_ne (f := f) (v := v) same
      simp only [List.map_cons, chainAssign, HashTable.chainAssign, image, same, if_false,
        ih distinct, Option.map_some, Option.map_map]
      congr 2
      funext chain'
      exact congrArg (· :: chain'.map (image (put f key v))) kept.symm

theorem chainAssign_new {key : Bytes} (v : ν) {chain : List (HtEntry α)}
    (new : HashTable.chainFind key chain = none) :
    chainAssign key v (chain.map (image f)) = some none := by
  induction chain with
  | nil => rfl
  | cons e next ih =>
    by_cases same : e.key = key
    · simp [HashTable.chainFind, same] at new
    · simp only [HashTable.chainFind, same, if_false] at new
      simp [chainAssign, image, same, ih new]

theorem chainUnlink_image (key : Bytes) (chain : List (HtEntry α)) :
    chainUnlink key (chain.map (image f)) =
      some ((HashTable.chainUnlink key chain).map (·.map (image f))) := by
  induction chain with
  | nil => rfl
  | cons e next ih =>
    by_cases same : e.key = key
    · simp [chainUnlink, HashTable.chainUnlink, image, same]
    · simp only [List.map_cons, chainUnlink, HashTable.chainUnlink, image, same, if_false, ih,
        Option.map_some, Option.map_map]
      rfl

theorem image_getD (table : List (List (HtEntry α))) (idx : Nat) :
    (table.map (List.map (image f))).getD idx [] = (table.getD idx []).map (image f) := by
  simp only [List.getD_eq_getElem?_getD, List.getElem?_map]
  cases table[idx]? <;> rfl

theorem image_set (table : List (List (HtEntry α))) (idx : Nat) (chain : List (HtEntry α)) :
    (table.map (List.map (image f))).set idx (chain.map (image f)) =
      (table.set idx chain).map (·.map (image f)) := by
  rw [List.map_set]

theorem htExists_image (ht : RawHt α) (key : Bytes) :
    htExists (imageHt f ht) key = some (HashTable.htExists ht key) := by
  have bucket : (imageHt f ht).bucketOf key = ht.bucketOf key := rfl
  simp only [htExists, imageHt, Option.bind_some]
  change (chainFind key ((ht.table.map (List.map (image f))).getD (ht.bucketOf key) [])).map _ = _
  rw [image_getD, chainFind_image, Option.map_some, Option.isSome_map]
  rfl

theorem htDel_image (ht : RawHt α) (key : Bytes) :
    htDel (imageHt f ht) key =
      some (imageHt f (HashTable.htDel ht key).1, (HashTable.htDel ht key).2) := by
  have walk := chainUnlink_image (f := f) key (ht.chain (ht.bucketOf key))
  rw [RawHt.chain, ← image_getD] at walk
  change (match chainUnlink key ((ht.table.map (List.map (image f))).getD (ht.bucketOf key) []) with
    | none => none
    | some none => some (imageHt f ht, false)
    | some (some chain) => some ({ imageHt f ht with
        table := some ((ht.table.map (List.map (image f))).set (ht.bucketOf key) chain)
        used := ht.used - 1 }, true)) = _
  rw [walk]
  cases hc : HashTable.chainUnlink key (ht.chain (ht.bucketOf key)) with
  | none =>
    rw [htDel_of_none hc, ← RawHt.chain, hc]
    rfl
  | some chain =>
    rw [htDel_of_some hc, ← RawHt.chain, hc, Option.map_some]
    simp only [image_set]
    rfl

/-! ht_resize. -/

theorem relink_image {newSize : Nat} (table : List (List (HtEntry α))) (e : HtEntry α) :
    relink newSize (some (table.map (List.map (image f)))) (image f e) =
      some (some ((HashTable.relink newSize table e).map (List.map (image f)))) := by
  simp only [relink, image, HashTable.relink, image_getD]
  rw [← image_set]
  rfl

theorem foldlM_relink_image {newSize : Nat} (es : List (HtEntry α))
    (table : List (List (HtEntry α))) :
    (es.map (image f)).foldlM (relink newSize) (some (table.map (List.map (image f)))) =
      some (some ((es.foldl (HashTable.relink newSize) table).map (List.map (image f)))) := by
  induction es generalizing table with
  | nil => rfl
  | cons e es ih =>
    rw [List.map_cons, List.foldlM_cons, relink_image, List.foldl_cons, ← ih]
    rfl

theorem htResize_image {io : SetIo} (ok : io.table = true) (ht : RawHt α) (newSize : Nat) :
    htResize io (imageHt f ht) newSize = some (imageHt f (HashTable.htResize ht newSize)) := by
  have blank : (some (List.replicate newSize []) : Option (List (List (HeapEntry ν)))) =
      some ((List.replicate newSize []).map (List.map (image f))) := by
    rw [List.map_replicate]
    rfl
  have flat : (ht.table.map (List.map (image f))).flatten = ht.entries.map (image f) :=
    List.map_flatten.symm
  simp only [htResize, imageHt, ok, if_true, flat, blank, foldlM_relink_image, Option.map_some,
    htResize_table]
  rfl

theorem foldlM_relink_none {newSize : Nat} {es : List (HeapEntry ν)} (some_entry : es ≠ []) :
    es.foldlM (relink newSize) none = none := by
  obtain ⟨e, es, rfl⟩ := List.exists_cons_of_ne_nil some_entry
  have ends : relink newSize none e = none := by
    unfold relink
    split <;> simp_all
  rw [List.foldlM_cons, ends]
  rfl

theorem foldlM_relink_keyless {newSize : Nat} {es : List (HeapEntry ν)} {e : HeapEntry ν}
    (mem : e ∈ es) (keyless : e.key = none) (table : Option (List (List (HeapEntry ν)))) :
    es.foldlM (relink newSize) table = none := by
  induction es generalizing table with
  | nil => cases mem
  | cons first es ih =>
    rw [List.foldlM_cons]
    cases hr : relink newSize table first with
    | none => rfl
    | some table' =>
      rcases List.mem_cons.mp mem with rfl | mem
      · simp [relink, keyless] at hr
      · exact ih mem table'

/-! ht_set. -/

def Grows (ht : RawHt α) : Prop := 4 * (ht.used + 1) > 3 * ht.size

instance (ht : RawHt α) : Decidable (Grows ht) := inferInstanceAs (Decidable (_ > _))

theorem htUpsert_imageHt (io : SetIo) (ht : RawHt α) (key : Bytes) (v : ν) :
    htUpsert io (imageHt f ht) key v =
      match chainAssign key v ((ht.chain (ht.bucketOf key)).map (image f)) with
      | none => none
      | some (some chain) =>
          some (some ({ imageHt f ht with
            table := some ((ht.table.map (List.map (image f))).set (ht.bucketOf key) chain) }, true))
      | some none =>
          if io.entry = false then some none
          else some (some ({ imageHt f ht with
            table := some ((ht.table.map (List.map (image f))).set (ht.bucketOf key)
              (⟨if io.key then some key else none, v⟩ ::
                (ht.chain (ht.bucketOf key)).map (image f)))
            used := ht.used + 1 }, false)) := by
  rw [RawHt.chain, ← image_getD]
  rfl

theorem mem_flatten_set {β : Type} {table : List (List β)} {idx : Nat} (h : idx < table.length)
    {chain : List β} {e : β} (mem : e ∈ chain) : e ∈ (table.set idx chain).flatten :=
  List.mem_flatten.mpr ⟨chain, List.mem_set h chain, mem⟩

theorem image_put_set {ht : RawHt α} (h : ht.Shape) (key : Bytes) (v : ν)
    (chain : List (HtEntry α)) :
    (ht.table.map (List.map (image f))).set (ht.bucketOf key) (chain.map (image (put f key v))) =
      (ht.table.set (ht.bucketOf key) chain).map (List.map (image (put f key v))) := by
  rw [List.map_set]
  refine List.ext_getElem (by simp) fun idx inside _ => ?_
  have room : idx < ht.table.length := by simpa using inside
  by_cases here : ht.bucketOf key = idx
  · subst here
    simp
  · rw [List.getElem_set_ne here, List.getElem_set_ne here, List.getElem_map, List.getElem_map]
    refine List.map_congr_left fun e mem => (image_put_of_ne ?_).symm
    rintro rfl
    refine here (h.placed idx e ?_)
    rwa [RawHt.chain, List.getD_eq_getElem?_getD, List.getElem?_eq_getElem room]

theorem htSet_found {ht : RawHt α} (h : ht.Shape) {key : Bytes}
    (held : (HashTable.htFind ht key).isSome) (io : SetIo) (v : ν) (a : α) :
    htSet io (imageHt f ht) key v =
      some (imageHt (put f key v) (HashTable.htSet ht key a), true) := by
  cases hc : HashTable.chainAssign key a (ht.chain (ht.bucketOf key)) with
  | none =>
    have new := chainAssign_none.mp hc
    rw [HashTable.htFind, new] at held
    cases held
  | some chain =>
    rw [htSet, htUpsert_imageHt, chainAssign_put key v a (h.distinct _), hc, Option.map_some]
    simp only [Bool.not_true, Bool.false_and, Bool.false_eq_true, if_false, image_put_set h]
    rw [HashTable.htSet, htUpsert_of_some hc]
    rfl

section New
variable {ht : RawHt α} {key : Bytes} (new : HashTable.htFind ht key = none) {io : SetIo}
include new

theorem htSet_refused (refused : io.entry = false) (v : ν) :
    htSet io (imageHt f ht) key v = some (imageHt f ht, false) := by
  rw [htSet, htUpsert_imageHt, chainAssign_new v new]
  simp only [refused, if_true]

theorem htSet_linked (entry : io.entry = true) (v : ν) :
    htSet io (imageHt f ht) key v =
      let linked : HeapHt ν := { imageHt f ht with
        table := some ((ht.table.map (List.map (image f))).set (ht.bucketOf key)
          (⟨if io.key then some key else none, v⟩ ::
            (ht.chain (ht.bucketOf key)).map (image f)))
        used := ht.used + 1 }
      if Grows ht then (htResize io linked (ht.size * 2)).map (·, true) else some (linked, true) := by
  rw [htSet, htUpsert_imageHt, chainAssign_new v new]
  simp only [entry, Bool.true_eq_false, if_false, Bool.not_false, Bool.true_and, decide_eq_true_eq]
  rfl

theorem htSet_new (h : ht.Shape) (entry : io.entry = true) (copied : io.key = true)
    (table : Grows ht → io.table = true) (v : ν) (a : α) :
    htSet io (imageHt f ht) key v =
      some (imageHt (put f key v) (HashTable.htSet ht key a), true) := by
  have upsert := htUpsert_of_none (v := a) (chainAssign_none.mpr new)
  have linked : ({ imageHt f ht with
      table := some ((ht.table.map (List.map (image f))).set (ht.bucketOf key)
        (⟨if io.key then some key else none, v⟩ ::
          (ht.chain (ht.bucketOf key)).map (image f)))
      used := ht.used + 1 } : HeapHt ν) = imageHt (put f key v) (HashTable.htUpsert ht key a).1 := by
    have entries : (⟨if io.key then some key else none, v⟩ : HeapEntry ν) ::
        (ht.chain (ht.bucketOf key)).map (image f) =
        (⟨key, a⟩ :: ht.chain (ht.bucketOf key)).map (image (put f key v)) := by
      have others : (ht.chain (ht.bucketOf key)).map (image f) =
          (ht.chain (ht.bucketOf key)).map (image (put f key v)) := by
        refine List.map_congr_left fun e mem => (image_put_of_ne fun eq => ?_).symm
        exact chainFind_eq_none.mp new (List.mem_map.mpr ⟨e, mem, eq⟩)
      rw [if_pos copied, List.map_cons, image, put, if_pos rfl, others]
    rw [upsert, entries, image_put_set h]
    rfl
  have stored : HashTable.htSet ht key a =
      if Grows ht then HashTable.htResize (HashTable.htUpsert ht key a).1 (ht.size * 2)
      else (HashTable.htUpsert ht key a).1 := by
    rw [HashTable.htSet, upsert]
    simp only [Bool.not_false, Bool.true_and, decide_eq_true_eq]
    rfl
  rw [htSet_linked new entry, stored]
  simp only [linked]
  by_cases grows : Grows ht
  · rw [if_pos grows, if_pos grows, htResize_image (table grows), Option.map_some]
  · rw [if_neg grows, if_neg grows]

end New

section Broken
variable {ht : RawHt α} (h : ht.Shape) {key : Bytes} (new : HashTable.htFind ht key = none)
  {io : SetIo} (entry : io.entry = true)
include h new entry

theorem htSet_tableless (grows : Grows ht) (short : io.table = false) (v : ν) :
    htSet io (imageHt f ht) key v = none := by
  have room : ht.bucketOf key < (ht.table.map (List.map (image f))).length := by
    simpa using h.bucketOf_lt key
  rw [htSet_linked new entry]
  simp only [if_pos grows, htResize, short, Bool.false_eq_true, if_false]
  rw [foldlM_relink_none (List.ne_nil_of_mem (mem_flatten_set room List.mem_cons_self))]
  rfl

theorem htSet_keyless (short : io.key = false) (v : ν) :
    htSet io (imageHt f ht) key v = none ∨
      ∃ t, htSet io (imageHt f ht) key v = some (t, true) ∧ htDel t key = none := by
  have room : ht.bucketOf key < (ht.table.map (List.map (image f))).length := by
    simpa using h.bucketOf_lt key
  rw [htSet_linked new entry]
  simp only [short, Bool.false_eq_true, if_false]
  by_cases grows : Grows ht
  · left
    simp only [if_pos grows, htResize]
    rw [foldlM_relink_keyless (mem_flatten_set room List.mem_cons_self) rfl]
    rfl
  · right
    rw [if_neg grows]
    refine ⟨_, rfl, ?_⟩
    have head : ((ht.table.map (List.map (image f))).set (ht.bucketOf key)
        (⟨none, v⟩ :: (ht.chain (ht.bucketOf key)).map (image f))).getD (ht.bucketOf key) [] =
        ⟨none, v⟩ :: (ht.chain (ht.bucketOf key)).map (image f) := by
      rw [List.getD_eq_getElem?_getD, List.getElem?_set_self room]
      rfl
    simp only [htDel, HeapHt.bucketOf, imageHt]
    change (match chainUnlink key (((ht.table.map (List.map (image f))).set (ht.bucketOf key)
        (⟨none, v⟩ :: (ht.chain (ht.bucketOf key)).map (image f))).getD (ht.bucketOf key) []) with
      | none => none
      | some none => _
      | some (some chain) => _) = _
    rw [head]
    rfl

end Broken

end Image

end ByteKV.HeapTable
