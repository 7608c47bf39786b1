import ByteKV.CString
import Mathlib.Logic.Function.Basic

/-! The read and write loops of util.c over scripted outcomes of the system calls,
and the part of a file system the log needs: inodes with their flushed prefix,
and the two directory entries. A script that has run out lets the next call
finish the job, so every run in which the loop ends has a script. -/
namespace ByteKV.FileIo

inductive WriteOutcome
  | wrote (n : Nat)
  | eintr
  | error
  deriving DecidableEq, Repr

/-- What reaches the descriptor, and whether `write_all` returns success. -/
def writeAll : List WriteOutcome → Bytes → Bytes × Bool
  | _, [] => ([], true)
  | [], buf => (buf, true)
  | .wrote n :: outs, buf =>
      let (rest, ok) := writeAll outs (buf.drop n)
      (buf.take n ++ rest, ok)
  | .eintr :: outs, buf => writeAll outs buf
  | .error :: _, _ => ([], false)

def faultAfter : List WriteOutcome → Option Nat
  | [] => none
  | .wrote n :: outs => (faultAfter outs).map (n + ·)
  | .eintr :: outs => faultAfter outs
  | .error :: _ => some 0

def Completes (outs : List WriteOutcome) (len : Nat) : Prop :=
  ∀ k, faultAfter outs = some k → len ≤ k

theorem faultAfter_eq_none {outs : List WriteOutcome} (h : .error ∉ outs) :
    faultAfter outs = none := by
  induction outs with
  | nil => rfl
  | cons o outs ih =>
    have later := ih fun hmem => h (List.mem_cons_of_mem _ hmem)
    cases o with
    | error => simp at h
    | _ => simp [faultAfter, later]

theorem writeAll_nil (outs : List WriteOutcome) : writeAll outs [] = ([], true) := by
  cases outs <;> rfl

theorem writeAll_eq (outs : List WriteOutcome) (buf : Bytes) :
    writeAll outs buf =
      match faultAfter outs with
      | some k => if buf.length ≤ k then (buf, true) else (buf.take k, false)
      | none => (buf, true) := by
  induction outs generalizing buf with
  | nil => cases buf <;> rfl
  | cons o outs ih =>
    rcases buf with _ | ⟨b, bs⟩
    · rw [writeAll_nil]
      split <;> simp
    · cases o with
      | eintr => exact ih _
      | error => simp [writeAll, faultAfter]
      | wrote n =>
        simp only [writeAll, ih, faultAfter]
        rcases faultAfter outs with _ | k
        · simp
        · simp only [Option.map_some, List.length_drop]
          by_cases enough : (b :: bs).length ≤ n + k
          · rw [if_pos (by omega), if_pos enough]
            simp
          · rw [if_neg (by omega), if_neg enough, List.take_add]

theorem writeAll_ok_iff {outs : List WriteOutcome} {buf : Bytes} :
    (writeAll outs buf).2 = true ↔ Completes outs buf.length := by
  rw [writeAll_eq, Completes]
  rcases faultAfter outs with _ | k
  · simp
  · by_cases h : buf.length ≤ k <;> simp [h]

theorem writeAll_of_completes {outs : List WriteOutcome} {buf : Bytes}
    (h : Completes outs buf.length) : writeAll outs buf = (buf, true) := by
  rw [writeAll_eq]
  rcases hf : faultAfter outs with _ | k
  · rfl
  · exact if_pos (h k hf)

theorem writeAll_of_fault {outs : List WriteOutcome} {buf : Bytes} {k : Nat}
    (h : faultAfter outs = some k) (hk : k < buf.length) :
    writeAll outs buf = (buf.take k, false) := by
  rw [writeAll_eq, h]
  exact if_neg (by omega)

theorem writeAll_whole {outs : List WriteOutcome} {buf : Bytes}
    (h : (writeAll outs buf).2 = true) : (writeAll outs buf).1 = buf := by
  rw [writeAll_of_completes (writeAll_ok_iff.mp h)]

inductive ReadOutcome
  | got (n : Nat)
  | eintr
  | error
  deriving DecidableEq, Repr

/-- The result of `read_exact`: its return value (`none` for -1), the bytes it
stored, what the descriptor still has in front of it, and the script left. -/
structure ReadResult where
  ret : Option Nat
  got : Bytes
  rest : Bytes
  reads : List ReadOutcome
  deriving DecidableEq, Repr

/-- A successful call returns at least one byte unless the file has ended. -/
def readExact : List ReadOutcome → (rest : Bytes) → (len : Nat) → ReadResult
  | [], rest, len => ⟨some (rest.take len).length, rest.take len, rest.drop len, []⟩
  | o :: outs, rest, len =>
      if len = 0 then ⟨some 0, [], rest, o :: outs⟩
      else match o with
        | .error => ⟨none, [], rest, outs⟩
        | .eintr => readExact outs rest len
        | .got n =>
            let n := min (n + 1) (min len rest.length)
            if n = 0 then ⟨some 0, [], rest, outs⟩
            else
              let r := readExact outs (rest.drop n) (len - n)
              ⟨r.ret.map (n + ·), rest.take n ++ r.got, r.rest, r.reads⟩

theorem readExact_eq {reads : List ReadOutcome} (ok : .error ∉ reads) (rest : Bytes) (len : Nat) :
    ∃ reads', .error ∉ reads' ∧
      readExact reads rest len =
        ⟨some (min len rest.length), rest.take len, rest.drop len, reads'⟩ := by
  induction reads generalizing rest len with
  | nil => exact ⟨[], by simp, by simp [readExact]⟩
  | cons o outs ih =>
    have ok' : .error ∉ outs := fun h => ok (List.mem_cons_of_mem _ h)
    by_cases hl : len = 0
    · exact ⟨o :: outs, ok, by simp [readExact, hl]⟩
    · cases o with
      | error => simp at ok
      | eintr => simpa [readExact, hl] using ih ok' rest len
      | got n =>
        simp only [readExact, hl, if_false]
        generalize hk : min (n + 1) (min len rest.length) = k
        by_cases done : k = 0
        · have atEnd : rest = [] := List.length_eq_zero_iff.mp (by omega)
          exact ⟨outs, ok', by simp [atEnd, done]⟩
        · obtain ⟨reads', h', eq⟩ := ih ok' (rest.drop k) (len - k)
          refine ⟨reads', h', ?_⟩
          rw [if_neg done, eq]
          simp only [Option.map_some, List.length_drop, List.drop_drop, ReadResult.mk.injEq,
            Option.some.injEq, and_true]
          refine ⟨by omega, ?_, by congr 1; omega⟩
          rw [← List.take_add]
          congr 1
          omega

theorem readExact_done {reads : List ReadOutcome} {rest : Bytes} {len n : Nat}
    (done : (readExact reads rest len).ret = some n) :
    n = min len rest.length ∧ (readExact reads rest len).got = rest.take len ∧
      (readExact reads rest len).rest = rest.drop len := by
  induction reads generalizing rest len n with
  | nil =>
    obtain rfl := Option.some.inj done
    exact ⟨List.length_take, rfl, rfl⟩
  | cons o outs ih =>
    by_cases hl : len = 0
    · have none : n = 0 := by simpa [readExact, hl, eq_comm] using done
      simp [readExact, hl, none]
    · cases o with
      | error => simp [readExact, hl] at done
      | eintr =>
        simp only [readExact, hl, if_false] at done ⊢
        exact ih done
      | got k =>
        simp only [readExact, hl, if_false] at done ⊢
        generalize hk : min (k + 1) (min len rest.length) = m at done ⊢
        by_cases atEnd : m = 0
        · obtain rfl : rest = [] := List.length_eq_zero_iff.mp (by omega)
          have none : n = 0 := by simpa [atEnd, eq_comm] using done
          simp [atEnd, none]
        · rw [if_neg atEnd] at done ⊢
          obtain ⟨left, later, rfl⟩ := Option.map_eq_some_iff.mp done
          obtain ⟨count, got, rest'⟩ := ih later
          have split : rest.take len = rest.take m ++ (rest.drop m).take (len - m) := by
            rw [← List.take_add]
            congr 1
            omega
          refine ⟨?_, ?_, ?_⟩
          · rw [count, List.length_drop]
            omega
          · rw [got, split]
          · rw [rest', List.drop_drop]
            congr 1
            omega

theorem readExact_le (reads : List ReadOutcome) (rest : Bytes) (len : Nat) :
    (readExact reads rest len).got.length ≤ len := by
  induction reads generalizing rest len with
  | nil => exact List.length_take_le _ _
  | cons o outs ih =>
    by_cases hl : len = 0
    · simp [readExact, hl]
    · cases o with
      | error => simp [readExact, hl]
      | eintr => simpa only [readExact, hl, if_false] using ih rest len
      | got n =>
        simp only [readExact, hl, if_false]
        split
        · exact Nat.zero_le _
        · have left := ih (rest.drop (min (n + 1) (min len rest.length)))
            (len - min (n + 1) (min len rest.length))
          rw [List.length_append, List.length_take]
          omega

/-- A file, and how much of it is known to be on the device. -/
structure Inode where
  data : Bytes
  synced : Nat
  bound : synced ≤ data.length

def Inode.empty : Inode := ⟨[], 0, le_refl _⟩

def Inode.grow (file : Inode) (bytes : Bytes) : Inode where
  data := file.data ++ bytes
  synced := file.synced
  bound := file.bound.trans (by simp)

def Inode.flushed (file : Inode) : Inode := ⟨file.data, file.data.length, le_refl _⟩

def Inode.cut (file : Inode) (bytes : Bytes) : Inode :=
  ⟨bytes, min file.synced bytes.length, Nat.min_le_right _ _⟩

/-- The directory entries are those of `aof_filename` and `aof_temp_filename`;
`next` is an inode number not in use. -/
structure Disk where
  inode : Nat → Inode
  next : Nat
  aof : Option Nat
  temp : Option Nat

namespace Disk

def data (d : Disk) (ino : Nat) : Bytes := (d.inode ino).data

/-- A write through a descriptor opened with O_APPEND, or at the end of the file. -/
def append (d : Disk) (ino : Nat) (bytes : Bytes) : Disk :=
  { d with inode := Function.update d.inode ino ((d.inode ino).grow bytes) }

/-- A successful fsync: everything written so far is on the device. -/
def flush (d : Disk) (ino : Nat) : Disk :=
  { d with inode := Function.update d.inode ino (d.inode ino).flushed }

def writeAll (d : Disk) (ino : Nat) (outs : List WriteOutcome) (buf : Bytes) : Disk × Bool :=
  (d.append ino (FileIo.writeAll outs buf).1, (FileIo.writeAll outs buf).2)

theorem writeAll_true {d d' : Disk} {ino : Nat} {outs : List WriteOutcome} {buf : Bytes}
    (h : d.writeAll ino outs buf = (d', true)) : d' = d.append ino buf := by
  obtain ⟨rfl, ok⟩ := Prod.mk.inj h
  rw [FileIo.writeAll_whole ok]

theorem writeAll_false {d d' : Disk} {ino : Nat} {outs : List WriteOutcome} {buf : Bytes}
    (h : d.writeAll ino outs buf = (d', false)) : ∃ out, d' = d.append ino out := by
  obtain ⟨rfl, -⟩ := Prod.mk.inj h
  exact ⟨_, rfl⟩

/-- open(temp, O_WRONLY | O_CREAT | O_TRUNC): an existing file is emptied in
place, a missing one is created. -/
def createTemp (d : Disk) : Disk × Nat :=
  match d.temp with
  | some ino => ({ d with inode := Function.update d.inode ino .empty }, ino)
  | none =>
      ({ d with
          inode := Function.update d.inode d.next .empty
          next := d.next + 1
          temp := some d.next }, d.next)

/-- open(aof, O_WRONLY | O_APPEND | O_CREAT). -/
def openAof (d : Disk) : Disk × Nat :=
  match d.aof with
  | some ino => (d, ino)
  | none =>
      ({ d with
          inode := Function.update d.inode d.next .empty
          next := d.next + 1
          aof := some d.next }, d.next)

def truncateTo (d : Disk) (ino : Nat) (bytes : Bytes) : Disk :=
  { d with inode := Function.update d.inode ino ((d.inode ino).cut bytes) }

def unlinkTemp (d : Disk) : Disk := { d with temp := none }

def renameTemp (d : Disk) : Disk := { d with aof := d.temp, temp := none }

@[simp] theorem append_data (d : Disk) (ino : Nat) (bytes : Bytes) :
    (d.append ino bytes).data ino = d.data ino ++ bytes := by
  simp [append, data, Inode.grow]

@[simp] theorem append_data_of_ne (d : Disk) {ino other : Nat} (bytes : Bytes) (h : other ≠ ino) :
    (d.append ino bytes).data other = d.data other := by
  simp [append, data, h]

@[simp] theorem flush_data (d : Disk) (ino other : Nat) :
    (d.flush ino).data other = d.data other := by
  by_cases h : other = ino
  · simp [flush, data, Inode.flushed, h]
  · simp [flush, data, h]

def synced (d : Disk) (ino : Nat) : Nat := (d.inode ino).synced

theorem synced_le (d : Disk) (ino : Nat) : d.synced ino ≤ (d.data ino).length := (d.inode ino).bound

@[simp] theorem append_synced (d : Disk) (ino : Nat) (bytes : Bytes) :
    (d.append ino bytes).synced ino = d.synced ino := by
  simp [append, synced, Inode.grow]

@[simp] theorem flush_synced (d : Disk) (ino : Nat) :
    (d.flush ino).synced ino = (d.data ino).length := by
  simp [flush, synced, data, Inode.flushed]

structure Ok (d : Disk) (fd : Nat) : Prop where
  aof : d.aof = some fd
  bound : fd < d.next
  temp : ∀ ino, d.temp = some ino → ino < d.next ∧ ino ≠ fd

structure WellFormed (d : Disk) : Prop where
  aof : ∀ ino, d.aof = some ino → ino < d.next
  temp : ∀ ino, d.temp = some ino → ino < d.next ∧ d.aof ≠ some ino

def blank : Disk := ⟨fun _ => .empty, 0, none, none⟩

theorem blank_wellFormed : blank.WellFormed := ⟨by simp [blank], by simp [blank]⟩

theorem openAof_ok {d : Disk} (wf : d.WellFormed) : d.openAof.1.Ok d.openAof.2 := by
  rcases ha : d.aof with _ | ino
  · have eq : d.openAof =
        ({ d with
            inode := Function.update d.inode d.next .empty
            next := d.next + 1
            aof := some d.next }, d.next) := by simp [openAof, ha]
    rw [eq]
    exact ⟨rfl, Nat.lt_succ_self _, fun other ht =>
      ⟨Nat.lt_succ_of_lt (wf.temp other ht).1, (wf.temp other ht).1.ne⟩⟩
  · have eq : d.openAof = (d, ino) := by simp [openAof, ha]
    rw [eq]
    exact ⟨ha, wf.aof ino ha, fun other ht =>
      ⟨(wf.temp other ht).1, fun same => (wf.temp other ht).2 (same ▸ ha)⟩⟩

theorem createTemp_spec {d : Disk} {fd : Nat} (ok : d.Ok fd) :
    d.createTemp.1.Ok fd ∧ d.createTemp.1.temp = some d.createTemp.2 ∧
      d.createTemp.1.data d.createTemp.2 = [] ∧ d.createTemp.1.data fd = d.data fd := by
  have bound := ok.bound
  rcases ht : d.temp with _ | ino
  · have eq : d.createTemp =
        ({ d with
            inode := Function.update d.inode d.next .empty
            next := d.next + 1
            temp := some d.next }, d.next) := by simp [createTemp, ht]
    rw [eq]
    refine ⟨⟨ok.aof, Nat.lt_succ_of_lt bound, ?_⟩, rfl, by simp [data, Inode.empty], ?_⟩
    · rintro _ ⟨rfl⟩
      exact ⟨Nat.lt_succ_self _, bound.ne'⟩
    · simp [data, bound.ne]
  · have eq : d.createTemp =
        ({ d with inode := Function.update d.inode ino .empty }, ino) := by simp [createTemp, ht]
    rw [eq]
    exact ⟨⟨ok.aof, bound, ok.temp⟩, ht, by simp [data, Inode.empty],
      by simp [data, (ok.temp ino ht).2.symm]⟩

structure SameBut (ino : Nat) (d d' : Disk) : Prop where
  aof : d'.aof = d.aof
  temp : d'.temp = d.temp
  next : d'.next = d.next
  data : ∀ other, other ≠ ino → d'.data other = d.data other

theorem SameBut.refl (ino : Nat) (d : Disk) : SameBut ino d d := ⟨rfl, rfl, rfl, fun _ _ => rfl⟩

theorem SameBut.trans {ino : Nat} {d d' d'' : Disk} (h : SameBut ino d d')
    (h' : SameBut ino d' d'') : SameBut ino d d'' :=
  ⟨h'.aof.trans h.aof, h'.temp.trans h.temp, h'.next.trans h.next,
    fun other ne => (h'.data other ne).trans (h.data other ne)⟩

theorem SameBut.ok {ino fd : Nat} {d d' : Disk} (h : SameBut ino d d') (ok : d.Ok fd) : d'.Ok fd :=
  ⟨h.aof.trans ok.aof, h.next ▸ ok.bound, fun other ht => h.next ▸ ok.temp other (h.temp ▸ ht)⟩

theorem append_sameBut (d : Disk) (ino : Nat) (bytes : Bytes) :
    SameBut ino d (d.append ino bytes) :=
  ⟨rfl, rfl, rfl, fun _ ne => append_data_of_ne d bytes ne⟩

theorem flush_sameBut (d : Disk) (ino : Nat) : SameBut ino d (d.flush ino) :=
  ⟨rfl, rfl, rfl, fun other _ => flush_data d ino other⟩

end Disk

end ByteKV.FileIo
