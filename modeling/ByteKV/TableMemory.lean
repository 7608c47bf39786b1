import ByteKV.HashTable
import ByteKV.HeapProgram

/-! The hash table of ht.c in memory: blocks that malloc has given, and pointers between
them. The string pointers of the callers may point anywhere. -/
namespace ByteKV.TableMemory
open Separation Assn HeapProgram

abbrev Ptr := Nat

abbrev null : Ptr := 0

inductive HtValType
  | str
  | i64
  deriving DecidableEq, Repr

/-- `ht_val_t`; what malloc leaves there is neither. -/
inductive HtVal
  | junk
  | str (s : Ptr)
  | i64 (n : Int)
  deriving DecidableEq, Repr

/-- `ht_entry_t`. -/
structure EntryBlock where
  key : Ptr := null
  val : HtVal := .junk
  next : Ptr := null
  deriving DecidableEq, Repr

/-- `ht_t`. -/
structure HtBlock where
  table : Ptr := null
  valType : HtValType := .str
  size : Nat := 0
  sizemask : Nat := 0
  used : Nat := 0
  deriving DecidableEq, Repr

/-- `db_t`. -/
structure DbBlock where
  keyspace : Ptr := null
  expires : Ptr := null
  startMs : Int := 0
  deriving DecidableEq, Repr

/-- What a block holds: a string without its NUL, or one of the structures or arrays. -/
inductive Block
  | chars (s : Bytes)
  | entry (e : EntryBlock)
  | slots (table : List Ptr)
  | ht (ht : HtBlock)
  | db (db : DbBlock)
  deriving DecidableEq, Repr

instance : Layout Block Bytes where
  put := .chars
  get | .chars s => some s | _ => none
  get_put _ := rfl

instance : Layout Block EntryBlock where
  put := .entry
  get | .entry e => some e | _ => none
  get_put _ := rfl

instance : Layout Block (List Ptr) where
  put := .slots
  get | .slots table => some table | _ => none
  get_put _ := rfl

instance : Layout Block HtBlock where
  put := .ht
  get | .ht ht => some ht | _ => none
  get_put _ := rfl

instance : Layout Block DbBlock where
  put := .db
  get | .db db => some db | _ => none
  get_put _ := rfl

abbrev Proc := Prog Ptr Block

/-! The functions of the C library. -/

def strdup (malloc : Allocator Ptr Block) (s : Ptr) : Proc Ptr := do
  let chars ← load Bytes s
  alloc malloc chars

/-- Whether `strcmp` finds no difference. -/
def strcmpEq (s t : Ptr) : Proc Bool := do
  let a ← load Bytes s
  let b ← load Bytes t
  return decide (a = b)

def slot (table : Ptr) (idx : Nat) : Proc Ptr := do
  let slots ← load (List Ptr) table
  match slots[idx]? with
  | some entry => return entry
  | none => fault .stopped

def setSlot (table : Ptr) (idx : Nat) (entry : Ptr) : Proc Unit := do
  let slots ← load (List Ptr) table
  if idx < slots.length then store table (slots.set idx entry) else fault .stopped

/-! The functions of ht.c. What malloc leaves in a block is not read before it is set. -/

def htCreate (malloc : Allocator Ptr Block) (valType : HtValType) : Proc Ptr := do
  let ht ← alloc malloc ({} : HtBlock)
  let size := HashTable.htInitialSize
  let table ← alloc malloc (List.replicate size null)
  store ht ({ table, valType, size, sizemask := size - 1, used := 0 } : HtBlock)
  return ht

def htHash (key : Ptr) : Proc Nat := do
  let chars ← load Bytes key
  return HashTable.htHash chars

/-- `free(entry->val.str)`. -/
def freeStr (entry : Ptr) : Proc Unit := do
  let e ← load EntryBlock entry
  match e.val with
  | .str s => free s
  | _ => fault (.mistaken entry)

def htValFree (ht entry : Ptr) : Proc Unit := do
  let h ← load HtBlock ht
  if h.valType = .str then freeStr entry else return ()

/-- The walk of `ht_find` and of `ht_upsert`. -/
def findLoop (key : Ptr) : Ptr → Proc Ptr := loop fun entry => do
  if entry = null then return .inr null
  else
    let e ← load EntryBlock entry
    let same ← strcmpEq e.key key
    if same then return .inr entry else return .inl e.next

/-- The flag is `*found`. -/
def htUpsert (malloc : Allocator Ptr Block) (ht key : Ptr) : Proc (Ptr × Bool) := do
  let h ← load HtBlock ht
  let hash ← htHash key
  let index := hash &&& h.sizemask
  let head ← slot h.table index
  let entry ← findLoop key head
  if entry ≠ null then return (entry, true)
  else
    let newEntry ← alloc malloc ({} : EntryBlock)
    if newEntry = null then return (null, false)
    else
      let copy ← strdup malloc key
      let head ← slot h.table index
      store newEntry ({ key := copy, val := .junk, next := head } : EntryBlock)
      setSlot h.table index newEntry
      store ht { h with used := h.used + 1 }
      return (newEntry, false)

/-- The walk of one chain in `ht_resize`. -/
def relinkLoop (newTable : Ptr) (newSize : Nat) : Ptr → Proc Unit := loop fun entry => do
  if entry = null then return .inr ()
  else
    let e ← load EntryBlock entry
    let hash ← htHash e.key
    let newIdx := hash &&& (newSize - 1)
    let head ← slot newTable newIdx
    store entry { e with next := head }
    setSlot newTable newIdx entry
    return .inl e.next

def resizeLoop (ht newTable : Ptr) (newSize : Nat) : Nat → Proc Unit := loop fun i => do
  let h ← load HtBlock ht
  if i < h.size then
    let entry ← slot h.table i
    relinkLoop newTable newSize entry
    return .inl (i + 1)
  else return .inr ()

def htResize (malloc : Allocator Ptr Block) (ht : Ptr) (newSize : Nat) : Proc Unit := do
  let newTable ← alloc malloc (List.replicate newSize null)
  resizeLoop ht newTable newSize 0
  let h ← load HtBlock ht
  free h.table
  store ht { h with table := newTable, size := newSize, sizemask := newSize - 1 }

/-- The end of `ht_set_str` and of `ht_set_i64`. -/
def growIfLoaded (malloc : Allocator Ptr Block) (ht : Ptr) (found : Bool) : Proc Unit := do
  let h ← load HtBlock ht
  let needResize := !found && decide (4 * h.used > 3 * h.size)
  if needResize then htResize malloc ht (h.size * 2) else return ()

/-- The string of an entry that was there before. -/
def freeFound (entry : Ptr) (found : Bool) : Proc Unit := if found then freeStr entry else pure ()

def putStr (malloc : Allocator Ptr Block) (entry value : Ptr) (found : Bool) : Proc Unit := do
  freeFound entry found
  let copy ← strdup malloc value
  let e ← load EntryBlock entry
  store entry { e with val := .str copy }

/-- The flag is false for `EXIT_FAILURE`. -/
def htSetStr (malloc : Allocator Ptr Block) (ht key value : Ptr) : Proc Bool := do
  let h ← load HtBlock ht
  if h.valType ≠ .str then fault .stopped
  else
    let (entry, found) ← htUpsert malloc ht key
    if entry = null then return false
    else
      putStr malloc entry value found
      growIfLoaded malloc ht found
      return true

def putI64 (entry : Ptr) (value : Int) : Proc Unit := do
  let e ← load EntryBlock entry
  store entry { e with val := .i64 value }

def htSetI64 (malloc : Allocator Ptr Block) (ht key : Ptr) (value : Int) : Proc Bool := do
  let h ← load HtBlock ht
  if h.valType ≠ .i64 then fault .stopped
  else
    let (entry, found) ← htUpsert malloc ht key
    if entry = null then return false
    else
      putI64 entry value
      growIfLoaded malloc ht found
      return true

def htFind (ht key : Ptr) : Proc Ptr := do
  let h ← load HtBlock ht
  let hash ← htHash key
  let head ← slot h.table (hash &&& h.sizemask)
  findLoop key head

def htExists (ht key : Ptr) : Proc Bool := do
  let entry ← htFind ht key
  return entry ≠ null

def htGetStr (ht key : Ptr) : Proc Ptr := do
  let h ← load HtBlock ht
  if h.valType ≠ .str then fault .stopped
  else
    let entry ← htFind ht key
    if entry = null then return null
    else
      let e ← load EntryBlock entry
      match e.val with
      | .str s => return s
      | _ => fault (.mistaken entry)

/-- A pointer to the number in an entry is a pointer to the entry. -/
def htGetI64 (ht key : Ptr) : Proc Ptr := do
  let h ← load HtBlock ht
  if h.valType ≠ .i64 then fault .stopped
  else htFind ht key

def readI64 (entry : Ptr) : Proc Int := do
  let e ← load EntryBlock entry
  match e.val with
  | .i64 n => return n
  | _ => fault (.mistaken entry)

/-- What points to the entry from now on points behind it. -/
def bypass (ht : Ptr) (index : Nat) (prev next : Ptr) : Proc Unit :=
  if prev = null then do
    let h ← load HtBlock ht
    setSlot h.table index next
  else do
    let p ← load EntryBlock prev
    store prev { p with next := next }

def release (ht entry key : Ptr) : Proc Unit := do
  free key
  htValFree ht entry
  free entry
  let h ← load HtBlock ht
  store ht { h with used := h.used - 1 }

/-- What `ht_del` does to the entry it finds, behind `prev` if that is not NULL. -/
def unlink (ht : Ptr) (index : Nat) (prev entry : Ptr) : Proc Unit := do
  let e ← load EntryBlock entry
  bypass ht index prev e.next
  release ht entry e.key

def delLoop (ht key : Ptr) (index : Nat) : Ptr × Ptr → Proc Bool := loop fun (prev, entry) => do
  if entry = null then return .inr false
  else
    let e ← load EntryBlock entry
    let same ← strcmpEq e.key key
    if same then
      unlink ht index prev entry
      return .inr true
    else return .inl (entry, e.next)

def htDel (ht key : Ptr) : Proc Bool := do
  let h ← load HtBlock ht
  let hash ← htHash key
  let index := hash &&& h.sizemask
  let head ← slot h.table index
  delLoop ht key index (null, head)

/-- The walk of one chain in `ht_free`. -/
def freeChain (ht : Ptr) : Ptr → Proc Unit := loop fun entry => do
  if entry = null then return .inr ()
  else
    let e ← load EntryBlock entry
    free e.key
    htValFree ht entry
    let e ← load EntryBlock entry
    free entry
    return .inl e.next

def freeLoop (ht : Ptr) : Nat → Proc Unit := loop fun i => do
  let h ← load HtBlock ht
  if i < h.size then
    let entry ← slot h.table i
    freeChain ht entry
    return .inl (i + 1)
  else return .inr ()

def htFree (ht : Ptr) : Proc Unit := do
  freeLoop ht 0
  let h ← load HtBlock ht
  free h.table
  free ht

end ByteKV.TableMemory
