import ByteKV.AofRecord
import ByteKV.FileIo

/-! Recovery: `aof_load` and the loops it is made of. The stack buffer keeps its
old bytes between records and starts out arbitrary, the clock is read once per
record, and the read calls follow a script. `handed` is a history variable: the
bodies passed to `aof_replay_record` so far. -/
namespace ByteKV.AofLoad
open Config FileIo Database AofRecord

/-- memcpy or read into `buf` at offset `off`. -/
def store (buf : Bytes) (off : Nat) (bytes : Bytes) : Bytes :=
  buf.take off ++ (bytes ++ buf.drop (off + bytes.length))

structure LoadState where
  reads : List ReadOutcome
  rest : Bytes
  record : Bytes
  db : Db
  validEnd : Nat
  records : Nat
  handed : List Bytes

inductive BreakReason
  | headerReadError
  | truncatedHeader
  | truncatedBody
  | crcMismatch
  | replayFailed
  deriving DecidableEq, Repr

inductive LoadStep
  | again (s : LoadState)
  | eof (s : LoadState)
  | broken (s : LoadState) (reason : BreakReason)
  | overrun

/-- From the CRC check on, with the record complete in the buffer. -/
def loadRecord (clock : Nat → Int) (s : LoadState) (bodyLen : Nat) : LoadStep :=
  let crcStored := BigEndian.decode (s.record.take aofCrcSize)
  let crcComputed := Crc64.crc64 0 ((s.record.drop aofCrcSize).take (bodyLen + aofBodylenSize))
  if crcStored ≠ crcComputed.toNat then .broken s .crcMismatch
  else
    let body := s.record.drop aofHeaderSize
    let s := { s with handed := s.handed ++ [body.take bodyLen] }
    match aofReplayRecord s.db (clock s.records) body bodyLen with
    | .overrun => .overrun
    | .done db false => .broken { s with db := db } .replayFailed
    | .done db true =>
        .again { s with
          db := db
          records := s.records + 1
          validEnd := s.validEnd + (aofHeaderSize + bodyLen) }

/-- One round of the loop. The length word is used as it was read. -/
def loadIteration (clock : Nat → Int) (s : LoadState) : LoadStep :=
  let h := readExact s.reads s.rest aofHeaderSize
  let s := { s with reads := h.reads, rest := h.rest, record := store s.record 0 h.got }
  match h.ret with
  | none => .broken s .headerReadError
  | some nread =>
      if nread = 0 then .eof s
      else if nread < aofHeaderSize then .broken s .truncatedHeader
      else
        let bodyLen := BigEndian.decode ((s.record.drop aofCrcSize).take aofBodylenSize)
        let b := readExact s.reads s.rest bodyLen
        if s.record.length < aofHeaderSize + b.got.length then .overrun
        else
          let s := { s with
            reads := b.reads, rest := b.rest, record := store s.record aofHeaderSize b.got }
          match b.ret with
          | none => .broken s .truncatedBody
          | some nread =>
              if nread < bodyLen then .broken s .truncatedBody else loadRecord clock s bodyLen

inductive LoadEnd
  | ended (s : LoadState) (reason : Option BreakReason)
  | overrun

def loadLoop (clock : Nat → Int) : (rounds : Nat) → LoadState → LoadEnd
  | 0, s => .ended s none
  | rounds + 1, s =>
      match loadIteration clock s with
      | .again s => loadLoop clock rounds s
      | .eof s => .ended s none
      | .broken s reason => .ended s (some reason)
      | .overrun => .overrun

/-- The copy loop of `aof_quarantine_tail`: one read call and one `write_all` a
round; any failure ends it. -/
def quarantineCopy : (rounds : Nat) → List ReadOutcome → List (List WriteOutcome) →
    (rest : Bytes) → (remaining : Nat) → Bytes
  | 0, _, _, _, _ => []
  | rounds + 1, reads, writes, rest, remaining =>
      if remaining = 0 then []
      else
        let chunk := min remaining 8192
        let n := match reads.head? with
          | none => min chunk rest.length
          | some (.got n) => min (n + 1) (min chunk rest.length)
          | some _ => 0
        if n = 0 then []
        else
          let (out, ok) := writeAll (writes.headD []) (rest.take n)
          if ok then
            out ++ quarantineCopy rounds reads.tail writes.tail (rest.drop n) (remaining - n)
          else out

structure LoadIo where
  opened : Bool := true
  reads : List ReadOutcome := []
  quarantineOpened : Bool := true
  sought : Bool := true
  tailReads : List ReadOutcome := []
  tailWrites : List (List WriteOutcome) := []
  truncated : Bool := true

/-- No call of the load fails; reads may still be short. -/
structure LoadIo.Ok (io : LoadIo) : Prop where
  opened : io.opened = true
  reads : .error ∉ io.reads
  truncated : io.truncated = true

theorem LoadIo.Ok.silent : LoadIo.Ok {} := ⟨rfl, by simp, rfl⟩

def zeroed : Bytes := List.replicate aofRecordMax 0

theorem zeroed_length : zeroed.length = aofRecordMax := List.length_replicate

def aofQuarantineTail (io : LoadIo) (file : Bytes) (start len : Nat) : Option Bytes :=
  if !io.quarantineOpened then none
  else if !io.sought then some []
  else some (quarantineCopy len io.tailReads io.tailWrites (file.drop start) len)

structure Loaded where
  db : Db
  file : Bytes
  quarantine : Option Bytes
  validEnd : Nat
  records : Nat
  handed : List Bytes
  reason : Option BreakReason

/-- `fresh` and `loaded` return 0, `refused` returns -1. -/
inductive LoadResult
  | fresh
  | refused
  | loaded (out : Loaded)
  | overrun

def LoadResult.loaded? : LoadResult → Option Loaded
  | .loaded out => some out
  | _ => none

def aofLoad (file : Option Bytes) (db : Db) (clock : Nat → Int) (junk : Bytes) (io : LoadIo) :
    LoadResult :=
  match file with
  | none => .fresh
  | some bytes =>
      if bytes.length = 0 then .fresh
      else if bytes.length < aofFileHeaderSize then .refused
      else if !io.opened then .refused
      else
        let h := readExact io.reads bytes aofFileHeaderSize
        if h.ret ≠ some aofFileHeaderSize ∨ aofFileHeaderOk h.got = false then .refused
        else
          match loadLoop clock (h.rest.length + 1)
              ⟨h.reads, h.rest, junk, db, aofFileHeaderSize, 0, []⟩ with
          | .overrun => .overrun
          | .ended s reason =>
              let bytesLost := bytes.length - s.validEnd
              .loaded
                { db := s.db
                  file := if io.truncated then bytes.take s.validEnd else bytes
                  quarantine :=
                    if bytesLost > 0 then aofQuarantineTail io bytes s.validEnd bytesLost else none
                  validEnd := s.validEnd
                  records := s.records
                  handed := s.handed
                  reason := reason }

/-! Whatever every dispatch preserves, a load preserves, of any file. -/

section Induct
variable {I : Db → Prop}

def LoadStep.Keeps (I : Db → Prop) : LoadStep → Prop
  | .again s | .eof s | .broken s _ => I s.db
  | .overrun => True

variable (dispatch : ∀ db d, NulFree d.key → NulFree d.val → InI64 d.expireAt → I db →
  I (replayDispatch db d).1)
include dispatch

theorem aofReplayRecord_induct {db db' : Db} {nowMs : Int} {buf : Bytes} {bodyLen : Nat} {ok : Bool}
    (h : I db) (done : aofReplayRecord db nowMs buf bodyLen = .done db' ok) : I db' := by
  unfold aofReplayRecord at done
  simp only at done
  split at done
  · obtain ⟨rfl, -⟩ := ReplayResult.done.inj done
    exact h
  · split at done
    · obtain ⟨rfl, -⟩ := ReplayResult.done.inj done
      exact h
    · split at done
      · simp at done
      · obtain ⟨rfl, -⟩ := ReplayResult.done.inj done
        exact dispatch db _ (cstr_nulFree _) (cstr_nulFree _) (readFields_i64 buf) h

theorem loadIteration_induct (clock : Nat → Int) {s : LoadState} (h : I s.db) :
    (loadIteration clock s).Keeps I := by
  have record (s : LoadState) (bodyLen : Nat) (h : I s.db) :
      (loadRecord clock s bodyLen).Keeps I := by
    simp only [loadRecord]
    split
    · exact h
    · split
      · trivial
      · exact aofReplayRecord_induct dispatch h ‹_›
      · exact aofReplayRecord_induct dispatch h ‹_›
  simp only [loadIteration]
  split
  · exact h
  · split
    · exact h
    · split
      · exact h
      · split
        · trivial
        · split
          · exact h
          · split
            · exact h
            · exact record _ _ h

theorem loadLoop_induct (clock : Nat → Int) (rounds : Nat) {s s' : LoadState}
    {reason : Option BreakReason} (h : I s.db)
    (done : loadLoop clock rounds s = .ended s' reason) : I s'.db := by
  induction rounds generalizing s with
  | zero =>
    obtain ⟨rfl, -⟩ := LoadEnd.ended.inj done
    exact h
  | succ rounds ih =>
    have round := loadIteration_induct dispatch clock h
    rw [loadLoop] at done
    split at done
    · rename_i s₁ again
      rw [again] at round
      exact ih round done
    · rename_i s₁ eof
      obtain ⟨rfl, -⟩ := LoadEnd.ended.inj done
      rwa [eof] at round
    · rename_i s₁ why broken
      obtain ⟨rfl, -⟩ := LoadEnd.ended.inj done
      rwa [broken] at round
    · simp at done

theorem aofLoad_induct {file : Option Bytes} {db : Db} {clock : Nat → Int} {junk : Bytes}
    {io : LoadIo} {out : Loaded} (h : I db) (done : aofLoad file db clock junk io = .loaded out) :
    I out.db := by
  unfold aofLoad at done
  split at done
  · simp at done
  · split at done
    · simp at done
    · split at done
      · simp at done
      · split at done
        · simp at done
        · simp only at done
          split at done
          · simp at done
          · split at done
            · simp at done
            · rename_i s reason ended
              obtain rfl := LoadResult.loaded.inj done
              exact loadLoop_induct dispatch clock _ h ended

end Induct

/-! One round of the loop: on a whole record, and on a torn one. -/

theorem store_zero (buf bytes : Bytes) : store buf 0 bytes = bytes ++ buf.drop bytes.length := by
  simp [store]

theorem store_behind (front back bytes : Bytes) :
    store (front ++ back) front.length bytes = front ++ (bytes ++ back.drop bytes.length) := by
  simp [store, List.drop_append]

theorem record_layout {record stored body junk : Bytes} (len : stored.length = aofCrcSize)
    (eq : record = stored ++ (aofCovered body ++ junk)) :
    record.take aofCrcSize = stored ∧
      (record.drop aofCrcSize).take (body.length + aofBodylenSize) = aofCovered body ∧
      record.drop aofHeaderSize = body ++ junk := by
  subst eq
  have covered : (aofCovered body).length = body.length + aofBodylenSize := by
    simp [aofCovered, aofBodylenSize]
    omega
  refine ⟨List.take_left' len, ?_, ?_⟩
  · rw [List.drop_left' len]
    exact List.take_left' covered
  · rw [aofCovered, List.append_assoc, ← List.append_assoc]
    exact List.drop_left' (by simp [len, aofHeaderSize, aofBodylenSize])

theorem loadRecord_mismatch {s : LoadState} {stored body junk : Bytes} (clock : Nat → Int)
    (len : stored.length = aofCrcSize) (record : s.record = stored ++ (aofCovered body ++ junk))
    (wrong : BigEndian.decode stored ≠ (Crc64.crc64 0 (aofCovered body)).toNat) :
    loadRecord clock s body.length = .broken s .crcMismatch := by
  obtain ⟨front, computed, -⟩ := record_layout len record
  simp only [loadRecord, front, computed, ne_eq, wrong, not_false_eq_true, if_true]

theorem loadRecord_frame {s : LoadState} {body junk : Bytes} (clock : Nat → Int)
    (record : s.record = aofFrame body ++ junk) :
    loadRecord clock s body.length =
      match aofReplayRecord s.db (clock s.records) (body ++ junk) body.length with
      | .overrun => .overrun
      | .done db false =>
          .broken { s with db := db, handed := s.handed ++ [body] } .replayFailed
      | .done db true =>
          .again { s with
            db := db
            records := s.records + 1
            validEnd := s.validEnd + (aofHeaderSize + body.length)
            handed := s.handed ++ [body] } := by
  rw [aofFrame, List.append_assoc] at record
  obtain ⟨front, computed, behind⟩ := record_layout (by simp [aofCrcSize]) record
  have stored : BigEndian.decode (BigEndian.encode 8 (Crc64.crc64 0 (aofCovered body)).toNat) =
      (Crc64.crc64 0 (aofCovered body)).toNat :=
    BigEndian.decode_encode_of_lt (UInt64.toNat_lt _)
  simp only [loadRecord, front, computed, stored, ne_eq, not_true_eq_false, if_false, behind,
    List.take_left]

theorem stored_eq {stored body : Bytes} (len : stored.length = aofCrcSize)
    (holds : BigEndian.decode stored = (Crc64.crc64 0 (aofCovered body)).toNat) :
    stored ++ aofCovered body = aofFrame body := by
  have same := BigEndian.encode_decode stored
  rw [len, holds] at same
  rw [aofFrame, ← same]
  rfl

theorem store_framed (record : Bytes) {stored word body : Bytes}
    (len : (stored ++ word).length = aofHeaderSize) (covered : aofCovered body = word ++ body) :
    store (store record 0 (stored ++ word)) aofHeaderSize body =
      stored ++ (aofCovered body ++ record.drop (aofHeaderSize + body.length)) := by
  rw [store_zero, ← len, store_behind, List.drop_drop, covered, List.append_assoc,
    List.append_assoc]

theorem loadIteration_framed (clock : Nat → Int) {s : LoadState} {stored body tail : Bytes}
    (ok : .error ∉ s.reads) (room : s.record.length = aofRecordMax)
    (len : stored.length = aofCrcSize) (fits : aofHeaderSize + body.length ≤ aofRecordMax)
    (rest : s.rest = stored ++ (aofCovered body ++ tail)) :
    ∃ reads, .error ∉ reads ∧ loadIteration clock s =
      loadRecord clock { s with
        reads := reads
        rest := tail
        record := stored ++ (aofCovered body ++ s.record.drop (aofHeaderSize + body.length)) }
        body.length := by
  rw [aofHeaderSize_eq, aofRecordMax_eq] at fits
  obtain ⟨word, hword⟩ : ∃ word, word = BigEndian.encode 4 (body.length % 2 ^ 32) := ⟨_, rfl⟩
  have wordLen : word.length = aofBodylenSize := by simp [hword, aofBodylenSize]
  have covered : aofCovered body = word ++ body := by rw [aofCovered, hword]
  have frontLen : (stored ++ word).length = aofHeaderSize := by
    rw [List.length_append, len, wordLen]
    rfl
  have whole : s.rest = (stored ++ word) ++ (body ++ tail) := by
    rw [rest, covered, List.append_assoc, List.append_assoc]
  have decoded (junk : Bytes) :
      BigEndian.decode (((stored ++ word ++ junk).drop aofCrcSize).take aofBodylenSize) =
        body.length := by
    rw [List.append_assoc, List.drop_left' len, List.take_left' wordLen, hword,
      BigEndian.decode_encode_of_lt (by omega), Nat.mod_eq_of_lt (by omega)]
  obtain ⟨reads, ok₁, header⟩ := readExact_eq ok s.rest aofHeaderSize
  obtain ⟨reads', ok₂, payload⟩ := readExact_eq ok₁ (body ++ tail) body.length
  rw [whole, List.take_left' frontLen, List.drop_left' frontLen] at header
  rw [List.take_left, List.drop_left] at payload
  have hn : min aofHeaderSize (stored ++ word ++ (body ++ tail)).length = aofHeaderSize := by
    rw [List.length_append, frontLen]
    omega
  have bn : min body.length (body ++ tail).length = body.length := by
    rw [List.length_append]
    omega
  rw [hn] at header
  rw [bn] at payload
  have filled := store_framed s.record frontLen covered
  rw [store_zero] at filled
  have roomy : ¬ (stored ++ word ++ s.record.drop (stored ++ word).length).length <
      aofHeaderSize + body.length := by
    rw [List.length_append, List.length_drop, frontLen, room, aofHeaderSize_eq, aofRecordMax_eq]
    omega
  refine ⟨reads', ok₂, ?_⟩
  rw [loadIteration, whole, header]
  have nonzero : ¬ aofHeaderSize = 0 := by decide
  simp only [store_zero, decoded, payload, roomy, filled, nonzero, Nat.lt_irrefl, if_false]

theorem loadIteration_frame (clock : Nat → Int) {s : LoadState} {body tail : Bytes}
    (ok : .error ∉ s.reads) (room : s.record.length = aofRecordMax)
    (fits : aofHeaderSize + body.length ≤ aofRecordMax) (rest : s.rest = aofFrame body ++ tail) :
    ∃ reads record, .error ∉ reads ∧ record.length = aofRecordMax ∧
      record = aofFrame body ++ s.record.drop (aofHeaderSize + body.length) ∧
      loadIteration clock s =
        loadRecord clock { s with reads := reads, rest := tail, record := record } body.length := by
  obtain ⟨stored, hstored⟩ :
      ∃ stored, stored = BigEndian.encode 8 (Crc64.crc64 0 (aofCovered body)).toNat := ⟨_, rfl⟩
  have framed : aofFrame body = stored ++ aofCovered body := by rw [aofFrame, hstored]
  rw [framed, List.append_assoc] at rest
  obtain ⟨reads, ok', round⟩ :=
    loadIteration_framed clock ok room (by simp [hstored, aofCrcSize]) fits rest
  rw [← List.append_assoc, ← framed] at round
  refine ⟨reads, _, ok', ?_, rfl, round⟩
  rw [aofHeaderSize_eq] at fits
  rw [List.length_append, List.length_drop, room, aofFrame_length, aofHeaderSize_eq]
  omega

def replayStep (clock : Nat → Int) (s : LoadState) (r : LogRecord) : LoadStep :=
  let s := { s with handed := s.handed ++ [aofBody r.toRecord] }
  match replayOne (clock s.records) s.db r.toRecord with
  | (db, false) => .broken { s with db := db } .replayFailed
  | (db, true) =>
      .again { s with
        db := db
        records := s.records + 1
        validEnd := s.validEnd + r.bytes.length }

theorem loadRecord_bytes {s : LoadState} {r : LogRecord} {junk : Bytes} (clock : Nat → Int)
    (record : s.record = r.bytes ++ junk) :
    loadRecord clock s (aofBody r.toRecord).length = replayStep clock s r := by
  have len : aofHeaderSize + (aofBody r.toRecord).length = r.bytes.length := by
    rw [LogRecord.bytes, Record.bytes, aofFrame_length, aofHeaderSize_eq]
  rw [loadRecord_frame clock record, aofReplayRecord_aofBody, len, replayStep]
  rcases replayOne (clock s.records) s.db r.toRecord with ⟨db, _ | _⟩ <;> rfl

theorem bodyLen_front (r : LogRecord) (junk : Bytes) :
    BigEndian.decode (((r.bytes.take aofHeaderSize ++ junk).drop aofCrcSize).take aofBodylenSize) =
      (aofBody r.toRecord).length := by
  have fits := r.body_length_le
  have front : (r.bytes.take aofHeaderSize).length = aofHeaderSize := by
    simp [LogRecord.bytes, Record.bytes]
  have whole := @decode_bodyLen (aofBody r.toRecord)
    (by rw [aofHeaderSize_eq, aofRecordMax_eq] at fits; omega) []
  rw [List.append_nil, ← Record.bytes, ← LogRecord.bytes,
    ← List.take_append_drop aofHeaderSize r.bytes] at whole
  rw [← whole, List.drop_append_of_le_length, List.drop_append_of_le_length,
    List.take_append_of_le_length, List.take_append_of_le_length]
  all_goals
    simp only [List.length_drop, front]
    decide

theorem loadIteration_bytes (clock : Nat → Int) {s : LoadState} {r : LogRecord} {tail : Bytes}
    (ok : .error ∉ s.reads) (room : s.record.length = aofRecordMax)
    (rest : s.rest = r.bytes ++ tail) :
    ∃ reads record, .error ∉ reads ∧ record.length = aofRecordMax ∧
      loadIteration clock s =
        replayStep clock { s with reads := reads, rest := tail, record := record } r := by
  obtain ⟨reads, record, ok', room', framed, round⟩ :=
    loadIteration_frame clock ok room r.body_length_le rest
  exact ⟨reads, record, ok', room', round.trans (loadRecord_bytes clock framed)⟩

theorem loadIteration_torn (clock : Nat → Int) {s : LoadState} (ok : .error ∉ s.reads)
    (room : s.record.length = aofRecordMax)
    (torn : PrefixCode.Torn (Set.range LogRecord.bytes) s.rest) :
    ∃ reads rest record, loadIteration clock s =
      if s.rest = [] then .eof { s with reads := reads, rest := rest, record := record }
      else .broken { s with reads := reads, rest := rest, record := record }
        (if s.rest.length < aofHeaderSize then .truncatedHeader else .truncatedBody) := by
  obtain ⟨_, ⟨r, rfl⟩, m, short, cut⟩ := torn
  obtain ⟨reads, ok₁, header⟩ := readExact_eq ok s.rest aofHeaderSize
  by_cases stub : s.rest.length < aofHeaderSize
  · have n : min aofHeaderSize s.rest.length = s.rest.length := by omega
    refine ⟨reads, s.rest.drop aofHeaderSize, store s.record 0 (s.rest.take aofHeaderSize), ?_⟩
    rw [loadIteration, header]
    by_cases empty : s.rest = []
    · simp [empty]
    · have some : s.rest.length ≠ 0 := by simpa using empty
      simp only [n, some, stub, empty, if_true, if_false]
  · -- The length word is whole and promises more than there is.
    have n : min aofHeaderSize s.rest.length = aofHeaderSize := by omega
    have fits := r.body_length_le
    have promised : r.bytes.length = aofHeaderSize + (aofBody r.toRecord).length := by
      rw [LogRecord.bytes, Record.bytes, aofFrame_length, aofHeaderSize_eq]
    have restLen : s.rest.length = m := by
      rw [cut, List.length_take]
      omega
    have front : s.rest.take aofHeaderSize = r.bytes.take aofHeaderSize := by
      rw [cut, List.take_take]
      congr 1
      omega
    have frontLen : (s.rest.take aofHeaderSize).length = aofHeaderSize := by
      rw [List.length_take, n]
    have word : ∀ junk, BigEndian.decode (((s.rest.take aofHeaderSize ++ junk).drop
        aofCrcSize).take aofBodylenSize) = (aofBody r.toRecord).length :=
      fun junk => front ▸ bodyLen_front r junk
    obtain ⟨reads', ok₂, payload⟩ :=
      readExact_eq ok₁ (s.rest.drop aofHeaderSize) (aofBody r.toRecord).length
    have less : (s.rest.drop aofHeaderSize).length < (aofBody r.toRecord).length := by
      rw [List.length_drop]
      omega
    have bn : min (aofBody r.toRecord).length (s.rest.drop aofHeaderSize).length =
        (s.rest.drop aofHeaderSize).length := by omega
    rw [List.take_of_length_le less.le, List.drop_of_length_le less.le, bn] at payload
    refine ⟨reads', [], store (s.rest.take aofHeaderSize ++ s.record.drop aofHeaderSize)
      aofHeaderSize (s.rest.drop aofHeaderSize), ?_⟩
    have roomy : ¬ (s.rest.take aofHeaderSize ++ s.record.drop aofHeaderSize).length <
        aofHeaderSize + (s.rest.drop aofHeaderSize).length := by
      simp only [List.length_append, frontLen, List.length_drop, room] at less ⊢
      omega
    have some : s.rest ≠ [] := by
      rintro empty
      simp [empty] at stub
    have nonzero : ¬ aofHeaderSize = 0 := by decide
    rw [loadIteration, header]
    simp only [n, store_zero, frontLen, word, payload, roomy, less, some, stub, nonzero,
      Nat.lt_irrefl, if_true, if_false]

/-! The loop over whole records, and a torn one behind them. -/

structure Replayed where
  db : Db
  count : Nat
  whole : Bool

/-- Replay of a list of records, the first of them number `n`, up to the first
that fails. -/
def replayRecords (clock : Nat → Int) : (n : Nat) → Db → List LogRecord → Replayed
  | _, db, [] => ⟨db, 0, true⟩
  | n, db, r :: rs =>
      match replayOne (clock n) db r.toRecord with
      | (db, false) => ⟨db, 0, false⟩
      | (db, true) =>
          let later := replayRecords clock (n + 1) db rs
          ⟨later.db, later.count + 1, later.whole⟩

/-- How many bodies were handed on: the failing one is the last. -/
def Replayed.tried (out : Replayed) : Nat := out.count + (!out.whole).toNat

def Replayed.reason (out : Replayed) (torn : Bytes) : Option BreakReason :=
  if out.whole then
    if torn = [] then none
    else if torn.length < aofHeaderSize then some .truncatedHeader else some .truncatedBody
  else some .replayFailed

def TornTail (torn : Bytes) : Prop :=
  torn = [] ∨ PrefixCode.Torn (Set.range LogRecord.bytes) torn

theorem loadIteration_tail (clock : Nat → Int) {s : LoadState} (ok : .error ∉ s.reads)
    (room : s.record.length = aofRecordMax) (torn : TornTail s.rest) :
    ∃ reads rest record, loadIteration clock s =
      if s.rest = [] then .eof { s with reads := reads, rest := rest, record := record }
      else .broken { s with reads := reads, rest := rest, record := record }
        (if s.rest.length < aofHeaderSize then .truncatedHeader else .truncatedBody) := by
  rcases torn with empty | torn
  · obtain ⟨reads, -, header⟩ := readExact_eq ok s.rest aofHeaderSize
    refine ⟨reads, s.rest.drop aofHeaderSize, store s.record 0 (s.rest.take aofHeaderSize), ?_⟩
    rw [loadIteration, header]
    simp [empty]
  · exact loadIteration_torn clock ok room torn

theorem loadLoop_bytes (clock : Nat → Int) (rs : List LogRecord) {torn : Bytes}
    (tail : TornTail torn) (rounds : Nat) (s : LoadState) (enough : rs.length < rounds)
    (ok : .error ∉ s.reads) (room : s.record.length = aofRecordMax)
    (rest : s.rest = (rs.map LogRecord.bytes).flatten ++ torn) :
    ∃ s', loadLoop clock rounds s =
        .ended s' ((replayRecords clock s.records s.db rs).reason torn) ∧
      s'.db = (replayRecords clock s.records s.db rs).db ∧
      s'.records = s.records + (replayRecords clock s.records s.db rs).count ∧
      s'.validEnd = s.validEnd +
        ((rs.take (replayRecords clock s.records s.db rs).count).map LogRecord.bytes).flatten.length ∧
      s'.handed = s.handed ++ (rs.take (replayRecords clock s.records s.db rs).tried).map
        fun r => aofBody r.toRecord := by
  induction rs generalizing rounds s with
  | nil =>
    obtain ⟨rounds, rfl⟩ := Nat.exists_eq_succ_of_ne_zero (Nat.ne_of_gt enough)
    replace rest : s.rest = torn := by simpa using rest
    obtain ⟨reads, left, record, round⟩ :=
      loadIteration_tail clock ok room (rest ▸ tail)
    rw [loadLoop, round, rest]
    by_cases empty : torn = []
    all_goals
      refine ⟨{ s with reads := reads, rest := left, record := record }, ?_, rfl, rfl, ?_, ?_⟩
    · simp [empty, replayRecords, Replayed.reason]
    · simp
    · simp
    · simp only [empty, if_false, replayRecords, Replayed.reason, if_true]
      split <;> rfl
    · simp
    · simp
  | cons r rs ih =>
    obtain ⟨rounds, rfl⟩ := Nat.exists_eq_succ_of_ne_zero (Nat.ne_of_gt (Nat.zero_lt_of_lt enough))
    rw [List.map_cons, List.flatten_cons, List.append_assoc] at rest
    obtain ⟨reads, record, ok', room', round⟩ := loadIteration_bytes clock ok room rest
    rw [loadLoop, round, replayStep, replayRecords]
    rcases replayOne (clock s.records) s.db r.toRecord with ⟨db, _ | _⟩
    · refine ⟨_, rfl, rfl, rfl, ?_, ?_⟩ <;> simp [Replayed.tried]
    · obtain ⟨s', done, hdb, hrecords, hend, hhanded⟩ := ih rounds
        { s with
          reads := reads
          rest := (rs.map LogRecord.bytes).flatten ++ torn
          record := record
          handed := s.handed ++ [aofBody r.toRecord]
          db := db
          records := s.records + 1
          validEnd := s.validEnd + r.bytes.length }
        (by simpa using enough) ok' room' rfl
      simp only at done hdb hrecords hend hhanded ⊢
      generalize replayRecords clock (s.records + 1) db rs = later at *
      refine ⟨s', done, hdb, ?_, ?_, ?_⟩
      · rw [hrecords]
        omega
      · rw [hend]
        simp [Nat.add_assoc]
      · rw [hhanded]
        simp [Replayed.tried, Nat.add_right_comm]

/-- Loading a log of whole records with a torn one behind them. -/
theorem aofLoad_image (createdMs : Int) (rs : List LogRecord) {torn : Bytes}
    (tail : TornTail torn) (db : Db) (clock : Nat → Int) {junk : Bytes}
    (hjunk : junk.length = aofRecordMax) {io : LoadIo} (hio : io.Ok) :
    aofLoad (some (image createdMs rs ++ torn)) db clock junk io =
      let out := replayRecords clock 0 db rs
      let kept := image createdMs (rs.take out.count)
      let lost := (image createdMs rs ++ torn).length - kept.length
      .loaded
        { db := out.db
          file := kept
          quarantine :=
            if lost > 0 then
              aofQuarantineTail io (image createdMs rs ++ torn) kept.length lost
            else none
          validEnd := kept.length
          records := out.count
          handed := (rs.take out.tried).map fun r => aofBody r.toRecord
          reason := out.reason torn } := by
  have front : image createdMs rs ++ torn =
      aofFileHeader createdMs ++ ((rs.map LogRecord.bytes).flatten ++ torn) := by
    rw [image, List.append_assoc]
  have hdrLen : (aofFileHeader createdMs).length = aofFileHeaderSize := by simp
  have long : aofFileHeaderSize ≤ (image createdMs rs ++ torn).length := by
    rw [front, List.length_append, hdrLen]
    omega
  have nonzero : 0 < aofFileHeaderSize := by decide
  obtain ⟨reads, ok, header⟩ :=
    readExact_eq hio.reads (image createdMs rs ++ torn) aofFileHeaderSize
  rw [Nat.min_eq_left long, front, List.take_left' hdrLen, List.drop_left' hdrLen,
    ← front] at header
  have enough : rs.length < ((rs.map LogRecord.bytes).flatten ++ torn).length + 1 := by
    have := LogRecord.length_le_flatten rs
    rw [List.length_append]
    omega
  obtain ⟨s, done, hdb, hrecords, hend, hhanded⟩ := loadLoop_bytes clock rs tail _
    ⟨reads, (rs.map LogRecord.bytes).flatten ++ torn, junk, db, aofFileHeaderSize, 0, []⟩
    enough ok hjunk rfl
  simp only at done hdb hrecords hend hhanded
  have small : ¬ (image createdMs rs ++ torn).length < aofFileHeaderSize := by omega
  have some : (image createdMs rs ++ torn).length ≠ 0 := by omega
  simp only [aofLoad, some, small, hio.opened, header, aofFileHeader_ok, done, if_false]
  rw [← image_length] at hend
  have cut : (image createdMs rs ++ torn).take s.validEnd =
      image createdMs (rs.take (replayRecords clock 0 db rs).count) := by
    rw [hend, ← List.take_append_drop (replayRecords clock 0 db rs).count rs, image_append,
      List.take_append_drop, List.append_assoc]
    exact List.take_left
  rw [hend] at cut
  rw [Nat.zero_add] at hrecords
  rw [List.nil_append] at hhanded
  simp only [Bool.not_true, Bool.false_eq_true, Bool.true_eq_false, ne_eq, not_true_eq_false,
    or_self, if_false, hio.truncated, if_true, cut, hdb, hrecords, hend, hhanded]

/-! Replay at one time point, as replay of an expiring log. -/

theorem replayRecords_cells (t : Int) (rs : List LogRecord) (n : Nat) (db : Db) :
    ((replayRecords (fun _ => t) n db rs).db.cells, (replayRecords (fun _ => t) n db rs).whole) =
      ExpiringLog.replay t (rs.map fun r => r.entry) db.cells := by
  induction rs generalizing n db with
  | nil => rfl
  | cons r rs ih =>
    have one := replayOne_cells t db r.toRecord
    simp only [replayRecords, List.map_cons, ExpiringLog.replay]
    generalize replayOne t db r.toRecord = out at one ⊢
    obtain ⟨db', ok⟩ := out
    by_cases skipped : ExpiringLog.past t r.entry.deadline
    · rw [if_pos skipped, Prod.mk.injEq] at one
      obtain ⟨same, rfl⟩ := one
      rw [if_pos skipped, ← same]
      exact ih (n + 1) db'
    · rw [if_neg skipped] at one
      rw [if_neg skipped, ← one]
      cases ok with
      | false => rfl
      | true => exact ih (n + 1) db'

theorem count_of_whole {clock : Nat → Int} {n : Nat} {db : Db} {rs : List LogRecord} :
    (replayRecords clock n db rs).whole = true ↔ (replayRecords clock n db rs).count = rs.length := by
  induction rs generalizing n db with
  | nil => simp [replayRecords]
  | cons r rs ih =>
    simp only [replayRecords]
    rcases replayOne (clock n) db r.toRecord with ⟨db', _ | _⟩
    · simp
    · simpa using ih

end ByteKV.AofLoad
