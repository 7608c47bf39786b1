import ByteKV.UntrustedLog

/-! What `aof_load` does with the part of a file that it does not replay: it is copied to
the quarantine file and cut off, however the calls cut the copying up. -/
namespace ByteKV.TruncatedTail
open Config FileIo Database AofRecord AofLoad LoadRounds UntrustedLog

/-- No call fails. Reads and writes may be short; `read_exact` and `write_all` may be
interrupted, the read calls of the copying loop may not. -/
structure NoError (io : LoadIo) : Prop extends io.Ok where
  quarantineOpened : io.quarantineOpened = true
  sought : io.sought = true
  tailReads : ∀ o ∈ io.tailReads, ∃ n, o = .got n
  tailWrites : ∀ outs ∈ io.tailWrites, .error ∉ outs

theorem NoError.silent : NoError {} := ⟨.silent, rfl, rfl, by simp, by simp⟩

/-! The copying loop. -/

theorem headD_ok {writes : List (List WriteOutcome)} (ok : ∀ outs ∈ writes, .error ∉ outs) :
    .error ∉ writes.headD [] := by
  cases writes with
  | nil => simp
  | cons outs writes => exact ok outs List.mem_cons_self

theorem quarantineCopy_whole {rounds : Nat} {reads : List ReadOutcome}
    {writes : List (List WriteOutcome)} {rest : Bytes} (readsOk : ∀ o ∈ reads, ∃ n, o = .got n)
    (writesOk : ∀ outs ∈ writes, .error ∉ outs) (enough : rest.length ≤ rounds) :
    quarantineCopy rounds reads writes rest rest.length = rest := by
  induction rounds generalizing reads writes rest with
  | zero =>
    obtain rfl := List.length_eq_zero_iff.mp (Nat.le_zero.mp enough)
    rfl
  | succ rounds ih =>
    by_cases empty : rest.length = 0
    · obtain rfl := List.length_eq_zero_iff.mp empty
      rfl
    · have copied {n : Nat} (positive : 0 < n) (bound : n ≤ rest.length) :
          (if (writeAll (writes.headD []) (rest.take n)).2 then
            (writeAll (writes.headD []) (rest.take n)).1 ++
              quarantineCopy rounds reads.tail writes.tail (rest.drop n) (rest.length - n)
          else (writeAll (writes.headD []) (rest.take n)).1) = rest := by
        have written : writeAll (writes.headD []) (rest.take n) = (rest.take n, true) :=
          writeAll_of_completes fun k fault => by
            rw [faultAfter_eq_none (headD_ok writesOk)] at fault
            cases fault
        have left : rest.length - n = (rest.drop n).length := List.length_drop.symm
        have later := ih (fun o h => readsOk o (List.mem_of_mem_tail h))
          (fun outs h => writesOk outs (List.mem_of_mem_tail h))
          (show (rest.drop n).length ≤ rounds by omega)
        simp only [written, if_true]
        rw [left, later, List.take_append_drop]
      rw [quarantineCopy, if_neg empty]
      cases reads with
      | nil =>
        have asked : 0 < min (min rest.length 8192) rest.length := by omega
        exact (if_neg asked.ne').trans (copied asked (Nat.min_le_right _ _))
      | cons o reads =>
        obtain ⟨k, rfl⟩ := readsOk o List.mem_cons_self
        have asked : 0 < min (k + 1) (min (min rest.length 8192) rest.length) := by omega
        have bound : min (k + 1) (min (min rest.length 8192) rest.length) ≤ rest.length := by omega
        exact (if_neg asked.ne').trans (copied asked bound)

/-! The records a load keeps. -/

inductive Accepts (clock : Nat → Int) : Cursor → List Bytes → Cursor → Prop
  | nil (c : Cursor) : Accepts clock c [] c
  | cons {c c₁ c₂ : Cursor} {body : Bytes} {bodies : List Bytes} (takes : Takes clock c body c₁)
      (later : Accepts clock c₁ bodies c₂) : Accepts clock c (body :: bodies) c₂

def frames (bodies : List Bytes) : Bytes := bodies.flatMap aofFrame

theorem Accepts.rest {clock : Nat → Int} {c c' : Cursor} {bodies : List Bytes}
    (accepts : Accepts clock c bodies c') : c.rest = frames bodies ++ c'.rest := by
  induction accepts with
  | nil => rfl
  | cons takes later ih =>
    obtain ⟨tail, db, front, fits, replayed⟩ := takes
    rw [front, frames, List.flatMap_cons, List.append_assoc]
    exact congrArg (_ ++ ·) ih

/-- A round that ends the loop leaves `valid_end` and the count where they were. -/
def Stopped (s : LoadState) : LoadStep → Prop
  | .eof t | .broken t _ => t.validEnd = s.validEnd ∧ t.records = s.records
  | _ => True

theorem loadRecord_stopped (clock : Nat → Int) (s : LoadState) (bodyLen : Nat) :
    Stopped s (loadRecord clock s bodyLen) := by
  simp only [loadRecord]
  split
  · exact ⟨rfl, rfl⟩
  · split
    · trivial
    · exact ⟨rfl, rfl⟩
    · trivial

theorem loadIteration_stopped (clock : Nat → Int) {s : LoadState}
    (room : s.record.length = aofRecordMax) : Stopped s (loadIteration clock s) := by
  have round := loadIteration_round clock room
  generalize loadIteration clock s = step at round
  cases round with
  | found => exact loadRecord_stopped clock _ _
  | eof => exact ⟨rfl, rfl⟩
  | broken => exact ⟨rfl, rfl⟩
  | overrun => trivial

/-- Where the loop ends it has counted the records it took, and moved `valid_end` past
these and nothing else. -/
theorem loadLoop_accepts {clock : Nat → Int} {rounds : Nat} {s s' : LoadState}
    {reason : Option BreakReason} (room : s.record.length = aofRecordMax)
    (ended : loadLoop clock rounds s = .ended s' reason) :
    ∃ bodies c, Accepts clock (cursor s) bodies c ∧ s'.records = s.records + bodies.length ∧
      s'.validEnd = s.validEnd + (frames bodies).length := by
  induction rounds generalizing s with
  | zero =>
    obtain ⟨rfl, -⟩ := LoadEnd.ended.inj ended
    exact ⟨[], _, .nil _, rfl, rfl⟩
  | succ rounds ih =>
    have stopped := loadIteration_stopped clock room
    rw [loadLoop] at ended
    split at ended
    · rename_i s₁ again
      obtain ⟨body, takes, records, validEnd, -⟩ := loadIteration_takes room again
      obtain ⟨bodies, c, accepts, counted, moved⟩ := ih (takes.room room) ended
      refine ⟨body :: bodies, c, .cons takes accepts, ?_, ?_⟩
      · rw [counted, records, List.length_cons]
        omega
      · rw [moved, validEnd, frames, frames, List.flatMap_cons, List.length_append,
          aofFrame_length, aofHeaderSize_eq]
        omega
    · rename_i s₁ eof
      obtain ⟨rfl, -⟩ := LoadEnd.ended.inj ended
      rw [eof] at stopped
      exact ⟨[], _, .nil _, stopped.2, stopped.1⟩
    · rename_i s₁ why broken
      obtain ⟨rfl, -⟩ := LoadEnd.ended.inj ended
      rw [broken] at stopped
      exact ⟨[], _, .nil _, stopped.2, stopped.1⟩
    · cases ended

/-! The load. -/

/-- The file is left with its header and the records that the load took, and everything
behind them is in the quarantine file. -/
def TailKept (bytes : Bytes) (db : Db) (clock : Nat → Int) (junk : Bytes) : Prop :=
  ∀ io, NoError io → ∃ out, aofLoad (some bytes) db clock junk io = .loaded out ∧
    out.file ++ out.quarantine.getD [] = bytes ∧
    ∃ bodies c, Accepts clock (startCursor bytes db junk) bodies c ∧ out.records = bodies.length ∧
      out.file = bytes.take aofFileHeaderSize ++ frames bodies

def WrapReached (bytes junk : Bytes) (db : Db) (clock : Nat → Int) : Prop :=
  ∃ c body tail, Reaches clock (startCursor bytes db junk) c ∧ c.rest = aofFrame body ++ tail ∧
    aofHeaderSize + body.length ≤ aofRecordMax ∧
    NotExpired (clock c.records) (readFields (body ++ c.stale body)) ∧
    Wraps (readFields (body ++ c.stale body)) body.length

section File
variable {bytes junk : Bytes} {db : Db} {clock : Nat → Int} (buffer : junk.length = aofRecordMax)
  (header : aofFileHeaderOk (bytes.take aofFileHeaderSize) = true)
include buffer header

theorem aofLoad_kept {io : LoadIo} (ok : NoError io)
    (inside : aofLoad (some bytes) db clock junk io ≠ .overrun) :
    ∃ out, aofLoad (some bytes) db clock junk io = .loaded out ∧
      out.file ++ out.quarantine.getD [] = bytes ∧
      ∃ bodies c, Accepts clock (startCursor bytes db junk) bodies c ∧ out.records = bodies.length ∧
        out.file = bytes.take aofFileHeaderSize ++ frames bodies := by
  have long : aofFileHeaderSize ≤ bytes.length := by
    have len := aofFileHeaderOk_length header
    rw [List.length_take] at len
    omega
  have nonempty : ¬ bytes.length = 0 := by
    rw [aofFileHeaderSize_eq] at long
    omega
  obtain ⟨reads, -, read⟩ := readExact_eq ok.reads bytes aofFileHeaderSize
  rw [Nat.min_eq_left long] at read
  simp only [aofLoad, nonempty, not_lt.mpr long, ok.opened, read, header, ne_eq, not_true_eq_false,
    Bool.true_eq_false, or_self, Bool.not_true, Bool.false_eq_true, if_false] at inside ⊢
  split at inside
  · exact absurd rfl inside
  · rename_i s reason ended
    obtain ⟨bodies, c, accepts, records, validEnd⟩ := loadLoop_accepts buffer ended
    simp only [ok.truncated, if_true]
    have kept : bytes.take s.validEnd = bytes.take aofFileHeaderSize ++ frames bodies := by
      have front : bytes.drop aofFileHeaderSize = frames bodies ++ c.rest := accepts.rest
      rw [validEnd, List.take_add, front, List.take_left]
    refine ⟨_, rfl, ?_, bodies, c, accepts, ?_, kept⟩
    · simp only
      split
      · rename_i lost
        have copied : quarantineCopy (bytes.drop s.validEnd).length io.tailReads io.tailWrites
            (bytes.drop s.validEnd) (bytes.drop s.validEnd).length = bytes.drop s.validEnd :=
          quarantineCopy_whole ok.tailReads ok.tailWrites (le_refl _)
        rw [List.length_drop] at copied
        simp only [aofQuarantineTail, ok.quarantineOpened, ok.sought, Bool.not_true,
          Bool.false_eq_true, if_false, Option.getD_some, copied]
        exact List.take_append_drop _ _
      · rename_i none
        rw [Option.getD_none, List.append_nil]
        exact List.take_of_length_le (by omega)
    · rw [records]
      exact Nat.zero_add _

variable (small : ∀ c, Reaches clock (startCursor bytes db junk) c → ¬ Oversized c.rest)
include small

theorem aofLoad_overrun_small {io : LoadIo} (ok : io.Ok) :
    aofLoad (some bytes) db clock junk io = .overrun ↔ WrapReached bytes junk db clock := by
  rw [aofLoad_overrun bytes db clock junk ok.opened]
  constructor
  · rintro ⟨t, visited, overrun⟩
    obtain ⟨reaches, room⟩ := loadRounds_reaches buffer visited
    have round := loadIteration_round clock room
    rw [overrun] at round
    generalize hstep : LoadStep.overrun = step at round
    cases round with
    | found reads stored body tail len front fits =>
      by_cases holds : BigEndian.decode stored = (Crc64.crc64 0 (aofCovered body)).toNat
      · have framed := stored_eq len holds
        rw [← List.append_assoc, framed] at hstep front
        rw [loadRecord_frame clock rfl] at hstep
        simp only at hstep
        split at hstep
        · rename_i replayed
          obtain ⟨fresh, wraps⟩ := (aofReplayRecord_overrun _ _ _ _ fits).mp replayed
          exact ⟨cursor t, body, tail, reaches, front, fits, fresh, wraps⟩
        · cases hstep
        · cases hstep
      · rw [loadRecord_mismatch clock len rfl holds] at hstep
        cases hstep
    | eof => cases hstep
    | broken => cases hstep
    | overrun long oversized => exact absurd ⟨long, oversized⟩ (small _ reaches)
  · rintro ⟨c, body, tail, reaches, front, fits, wraps⟩
    obtain ⟨t, visited, rfl, reads⟩ := loadRounds_of_reaches buffer header reaches io ok.reads
    have room := (loadRounds_reaches buffer visited).2
    obtain ⟨reads', record, -, -, rfl, round⟩ := loadIteration_frame clock reads room fits front
    have replayed : aofReplayRecord t.db (clock t.records)
        (body ++ t.record.drop (aofHeaderSize + body.length)) body.length = .overrun :=
      (aofReplayRecord_overrun _ _ _ _ fits).mpr wraps
    rw [loadRecord_frame clock rfl] at round
    simp only [replayed] at round
    exact ⟨t, visited, round⟩

/-- No byte is lost exactly when the loop comes to no record whose lengths wrap. -/
theorem tailKept_iff : TailKept bytes db clock junk ↔ ¬ WrapReached bytes junk db clock := by
  constructor
  · rintro kept wraps
    obtain ⟨out, loaded, -⟩ := kept {} .silent
    rw [(aofLoad_overrun_small buffer header small LoadIo.Ok.silent).mpr wraps] at loaded
    cases loaded
  · intro never io ok
    refine aofLoad_kept buffer header ok fun overrun => never ?_
    exact (aofLoad_overrun_small buffer header small ok.toOk).mp overrun

end File

theorem small_of_rounds {bytes junk : Bytes} {db : Db} {clock : Nat → Int}
    (buffer : junk.length = aofRecordMax)
    (header : aofFileHeaderOk (bytes.take aofFileHeaderSize) = true)
    (rounds : ∀ s ∈ loadRounds bytes db clock junk {}, ¬ Oversized s.rest) {c : Cursor}
    (reaches : Reaches clock (startCursor bytes db junk) c) : ¬ Oversized c.rest := by
  obtain ⟨s, visited, rfl, -⟩ := loadRounds_of_reaches buffer header reaches {} (by simp)
  exact rounds s visited

instance (rest : Bytes) : Decidable (Oversized rest) := inferInstanceAs (Decidable (_ ∧ _))

def tornFile : Bytes := logFile 0 [⟨.set, ascii "k", ascii "v", 0⟩] ++ [1, 2, 3]

theorem tailKept_torn : TailKept tornFile (dbCreate 0) (fun _ => 0) zeroed := by
  have header : aofFileHeaderOk (tornFile.take aofFileHeaderSize) = true := by decide +kernel
  have small : ∀ c, Reaches (fun _ => 0) (startCursor tornFile (dbCreate 0) zeroed) c →
      ¬ Oversized c.rest := fun c reaches =>
    small_of_rounds zeroed_length header (by decide +kernel) reaches
  refine (tailKept_iff zeroed_length header small).mpr fun wraps => ?_
  have overrun := (aofLoad_overrun_small zeroed_length header small LoadIo.Ok.silent).mpr wraps
  have loaded : (aofLoad (some tornFile) (dbCreate 0) (fun _ => 0) zeroed {}).loaded?.isSome =
      true := by decide +kernel
  rw [overrun] at loaded
  cases loaded

def wrappingFile : Bytes := aofFileHeader 0 ++ aofFrame wrappingBody

theorem wrappingFile_overruns :
    aofFileHeaderOk (wrappingFile.take aofFileHeaderSize) = true ∧
      (∀ c, Reaches (fun _ => 0) (startCursor wrappingFile (dbCreate 0) zeroed) c →
        ¬ Oversized c.rest) ∧
      aofLoad (some wrappingFile) (dbCreate 0) (fun _ => 0) zeroed {} = .overrun ∧
      ¬ TailKept wrappingFile (dbCreate 0) (fun _ => 0) zeroed := by
  have header : aofFileHeaderOk (wrappingFile.take aofFileHeaderSize) = true := by decide +kernel
  have small : ∀ c, Reaches (fun _ => 0) (startCursor wrappingFile (dbCreate 0) zeroed) c →
      ¬ Oversized c.rest := fun c reaches =>
    small_of_rounds zeroed_length header (by decide +kernel) reaches
  have wraps : WrapReached wrappingFile zeroed (dbCreate 0) (fun _ => 0) := by
    refine ⟨_, wrappingBody, [], .refl, ?_, by decide, ?_, ?_, ?_⟩ <;> decide +kernel
  have overrun := (aofLoad_overrun_small zeroed_length header small LoadIo.Ok.silent).mpr wraps
  refine ⟨header, small, overrun, fun kept => ?_⟩
  obtain ⟨out, loaded, -⟩ := kept {} .silent
  rw [overrun] at loaded
  cases loaded

end ByteKV.TruncatedTail
