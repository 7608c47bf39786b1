import ByteKV.AofLoad
import Mathlib.Logic.Relation

/-! The loop of `aof_load` over whatever a file may hold: where it can come to, and what
one round does there. The outcomes of the read calls decide how far it comes, never
what it finds. -/
namespace ByteKV.LoadRounds
open Config FileIo Database AofRecord AofLoad

/-- Where the loop stands: the records it has taken, the store, the record buffer, and
the part of the file in front of it. -/
structure Cursor where
  records : Nat
  db : Db
  record : Bytes
  rest : Bytes

def cursor (s : LoadState) : Cursor := ⟨s.records, s.db, s.record, s.rest⟩

/-- What is behind a body in the record buffer: bytes of earlier records. -/
def Cursor.stale (c : Cursor) (body : Bytes) : Bytes :=
  c.record.drop (aofHeaderSize + body.length)

/-- The loop takes one record: it is there whole and fits the buffer, its checksum holds,
and replay accepts it. -/
inductive Takes (clock : Nat → Int) (c : Cursor) (body : Bytes) : Cursor → Prop
  | record (tail : Bytes) (db : Db) (front : c.rest = aofFrame body ++ tail)
      (fits : aofHeaderSize + body.length ≤ aofRecordMax)
      (replayed : aofReplayRecord c.db (clock c.records) (body ++ c.stale body) body.length =
        .done db true) :
      Takes clock c body ⟨c.records + 1, db, aofFrame body ++ c.stale body, tail⟩

def Reaches (clock : Nat → Int) : Cursor → Cursor → Prop :=
  Relation.ReflTransGen fun c c' => ∃ body, Takes clock c body c'

theorem Takes.room {clock : Nat → Int} {c c' : Cursor} {body : Bytes}
    (takes : Takes clock c body c')
    (room : c.record.length = aofRecordMax) : c'.record.length = aofRecordMax := by
  obtain ⟨tail, db, front, fits, replayed⟩ := takes
  rw [aofHeaderSize_eq] at fits
  simp only [Cursor.stale, List.length_append, aofFrame_length, List.length_drop, room,
    aofHeaderSize_eq]
  omega

theorem Takes.shorter {clock : Nat → Int} {c c' : Cursor} {body : Bytes}
    (takes : Takes clock c body c') : c'.rest.length < c.rest.length := by
  obtain ⟨tail, db, front, fits, replayed⟩ := takes
  have len := congrArg List.length front
  rw [List.length_append, aofFrame_length] at len
  simp only [len]
  omega

theorem bodyLen_eq (record : Bytes) {rest : Bytes} (long : aofHeaderSize ≤ rest.length) :
    ((store record 0 (rest.take aofHeaderSize)).drop aofCrcSize).take aofBodylenSize =
      (rest.drop aofCrcSize).take aofBodylenSize := by
  have len : (rest.take aofHeaderSize).length = aofHeaderSize := by
    rw [List.length_take]
    omega
  have crc : aofCrcSize ≤ aofHeaderSize := by decide
  rw [store_zero, List.drop_append_of_le_length (by rwa [len]), List.take_append_of_le_length,
    List.drop_take, List.take_take]
  · rfl
  · rw [List.length_drop, len]
    decide

inductive Round (clock : Nat → Int) (s : LoadState) : LoadStep → Prop
  | found (reads : List ReadOutcome) (stored body tail : Bytes) (len : stored.length = aofCrcSize)
      (front : s.rest = stored ++ (aofCovered body ++ tail))
      (fits : aofHeaderSize + body.length ≤ aofRecordMax) :
      Round clock s (loadRecord clock { s with
        reads := reads
        rest := tail
        record := stored ++ (aofCovered body ++ s.record.drop (aofHeaderSize + body.length)) }
        body.length)
  | eof (reads : List ReadOutcome) (rest record : Bytes) :
      Round clock s (.eof { s with reads := reads, rest := rest, record := record })
  | broken (reads : List ReadOutcome) (rest record : Bytes) (reason : BreakReason) :
      Round clock s (.broken { s with reads := reads, rest := rest, record := record } reason)
  | overrun (long : aofHeaderSize ≤ s.rest.length) (oversized : aofRecordMax <
      aofHeaderSize + BigEndian.decode ((s.rest.drop aofCrcSize).take aofBodylenSize)) :
      Round clock s .overrun

theorem loadIteration_round (clock : Nat → Int) {s : LoadState}
    (room : s.record.length = aofRecordMax) : Round clock s (loadIteration clock s) := by
  rcases header : readExact s.reads s.rest aofHeaderSize with ⟨_ | nread, got, behind, reads⟩
  · simp only [loadIteration, header]
    exact .broken _ _ _ _
  · obtain ⟨count, hgot, hbehind⟩ := readExact_done (congrArg ReadResult.ret header)
    simp only [header] at hgot hbehind
    simp only [loadIteration, header]
    split
    · exact .eof _ _ _
    · split
      · exact .broken _ _ _ _
      · rename_i some long
        have there : aofHeaderSize ≤ s.rest.length := by omega
        have gotLen : got.length = aofHeaderSize := by
          rw [hgot, List.length_take]
          omega
        generalize hword : (s.rest.drop aofCrcSize).take aofBodylenSize = word
        have back : got.drop aofCrcSize = word := by
          rw [hgot, List.drop_take, ← hword]
          rfl
        have wordLen : word.length = aofBodylenSize := by
          rw [← back, List.length_drop, gotLen]
          rfl
        have inBuffer : ((store s.record 0 got).drop aofCrcSize).take aofBodylenSize = word := by
          rw [hgot, bodyLen_eq s.record there, hword]
        rw [inBuffer]
        have filled : (store s.record 0 got).length = aofRecordMax := by
          rw [store_zero, List.length_append, List.length_drop, gotLen, room]
          decide
        rw [filled]
        have asked := readExact_le reads behind (BigEndian.decode word)
        rcases payload : readExact reads behind (BigEndian.decode word) with ⟨_ | m, body, tail, reads'⟩
        · simp only [payload] at asked ⊢
          split
          · exact .overrun there (by rw [hword]; omega)
          · exact .broken _ _ _ _
        · obtain ⟨count', hbody, htail⟩ := readExact_done (congrArg ReadResult.ret payload)
          simp only [payload] at asked hbody htail ⊢
          split
          · exact .overrun there (by rw [hword]; omega)
          · rename_i inside
            split
            · exact .broken _ _ _ _
            · rename_i whole
              have bodyLen : body.length = BigEndian.decode word := by
                rw [hbody, List.length_take]
                omega
              have covered := aofCovered_of_word wordLen bodyLen
              have split : got = got.take aofCrcSize ++ word := by
                rw [← back, List.take_append_drop]
              have inPlace := store_framed s.record (split ▸ gotLen) covered
              rw [← split] at inPlace
              rw [inPlace, ← bodyLen]
              refine .found reads' _ body tail ?_ ?_ (not_lt.mp inside)
              · rw [List.length_take, gotLen]
                rfl
              · rw [covered, List.append_assoc, ← List.append_assoc, ← split, hgot, hbody, htail,
                  List.take_append_drop, hbehind, List.take_append_drop]

theorem loadIteration_found {clock : Nat → Int} {s s' : LoadState}
    (room : s.record.length = aofRecordMax) (again : loadIteration clock s = .again s') :
    ∃ reads stored body tail, stored.length = aofCrcSize ∧
      s.rest = stored ++ (aofCovered body ++ tail) ∧ aofHeaderSize + body.length ≤ aofRecordMax ∧
      loadRecord clock { s with
        reads := reads
        rest := tail
        record := stored ++ (aofCovered body ++ s.record.drop (aofHeaderSize + body.length)) }
        body.length = .again s' := by
  have round := loadIteration_round clock room
  rw [again] at round
  generalize hstep : LoadStep.again s' = step at round
  cases round with
  | found reads stored body tail len front fits =>
    exact ⟨reads, stored, body, tail, len, front, fits, rfl⟩
  | eof => cases hstep
  | broken => cases hstep
  | overrun => cases hstep

theorem loadIteration_takes {clock : Nat → Int} {s s' : LoadState}
    (room : s.record.length = aofRecordMax) (again : loadIteration clock s = .again s') :
    ∃ body, Takes clock (cursor s) body (cursor s') ∧ s'.records = s.records + 1 ∧
      s'.validEnd = s.validEnd + (aofHeaderSize + body.length) ∧ s'.handed = s.handed ++ [body] := by
  obtain ⟨reads, stored, body, tail, len, front, fits, round⟩ := loadIteration_found room again
  by_cases holds : BigEndian.decode stored = (Crc64.crc64 0 (aofCovered body)).toNat
  · have framed := stored_eq len holds
    rw [← List.append_assoc, framed] at round front
    rw [loadRecord_frame clock rfl] at round
    simp only at round
    split at round
    · cases round
    · cases round
    · rename_i db replayed
      obtain rfl := LoadStep.again.inj round
      exact ⟨body, .record tail db front fits replayed, rfl, rfl, rfl⟩
  · rw [loadRecord_mismatch clock len rfl holds] at round
    cases round

theorem loadIteration_again {clock : Nat → Int} {s : LoadState} {body : Bytes} {c : Cursor}
    (ok : .error ∉ s.reads) (room : s.record.length = aofRecordMax)
    (takes : Takes clock (cursor s) body c) :
    ∃ s', loadIteration clock s = .again s' ∧ .error ∉ s'.reads ∧ cursor s' = c ∧
      s'.handed = s.handed ++ [body] := by
  obtain ⟨tail, db, front, fits, replayed⟩ := takes
  obtain ⟨reads, record, ok', -, rfl, round⟩ := loadIteration_frame clock ok room fits front
  rw [loadRecord_frame clock rfl] at round
  have taken : aofReplayRecord s.db (clock s.records)
      (body ++ s.record.drop (aofHeaderSize + body.length)) body.length = .done db true := replayed
  simp only [taken] at round
  exact ⟨_, round, ok', rfl, rfl⟩

/-! All rounds of one load. -/

def loadStates (clock : Nat → Int) : (rounds : Nat) → LoadState → List LoadState
  | 0, _ => []
  | rounds + 1, s =>
      s :: match loadIteration clock s with
        | .again s' => loadStates clock rounds s'
        | _ => []

def loadRounds (bytes : Bytes) (db : Db) (clock : Nat → Int) (junk : Bytes) (io : LoadIo) :
    List LoadState :=
  let h := readExact io.reads bytes aofFileHeaderSize
  if h.ret ≠ some aofFileHeaderSize ∨ aofFileHeaderOk h.got = false then []
  else loadStates clock (h.rest.length + 1) ⟨h.reads, h.rest, junk, db, aofFileHeaderSize, 0, []⟩

theorem loadStates_reaches {clock : Nat → Int} {rounds : Nat} {s t : LoadState}
    (room : s.record.length = aofRecordMax) (visited : t ∈ loadStates clock rounds s) :
    Reaches clock (cursor s) (cursor t) ∧ t.record.length = aofRecordMax := by
  induction rounds generalizing s with
  | zero => simp [loadStates] at visited
  | succ rounds ih =>
    rcases List.mem_cons.mp visited with rfl | later
    · exact ⟨.refl, room⟩
    · split at later
      · rename_i s' again
        obtain ⟨body, takes, -⟩ := loadIteration_takes room again
        obtain ⟨reaches, room'⟩ := ih (takes.room room) later
        exact ⟨.head ⟨body, takes⟩ reaches, room'⟩
      · simp at later

theorem loadStates_of_reaches {clock : Nat → Int} {rounds : Nat} {s : LoadState} {c : Cursor}
    (enough : s.rest.length < rounds) (ok : .error ∉ s.reads) (room : s.record.length = aofRecordMax)
    (reaches : Reaches clock (cursor s) c) :
    ∃ t ∈ loadStates clock rounds s, cursor t = c ∧ .error ∉ t.reads := by
  obtain ⟨start, hs⟩ : ∃ start, cursor s = start := ⟨_, rfl⟩
  rw [hs] at reaches
  induction reaches using Relation.ReflTransGen.head_induction_on generalizing rounds s with
  | refl =>
    obtain ⟨rounds, rfl⟩ := Nat.exists_eq_succ_of_ne_zero (Nat.ne_of_gt (Nat.zero_lt_of_lt enough))
    exact ⟨s, List.mem_cons_self, hs, ok⟩
  | head first _ ih =>
    obtain ⟨body, takes⟩ := first
    subst hs
    obtain ⟨rounds, rfl⟩ := Nat.exists_eq_succ_of_ne_zero (Nat.ne_of_gt (Nat.zero_lt_of_lt enough))
    obtain ⟨s', again, ok', eq, -⟩ := loadIteration_again ok room takes
    have shorter := takes.shorter
    have room' := takes.room room
    rw [← eq] at shorter room'
    have enough' : s'.rest.length < rounds := by
      change s'.rest.length < s.rest.length at shorter
      omega
    obtain ⟨t, visited, ht⟩ := ih enough' ok' room' eq
    refine ⟨t, List.mem_cons_of_mem _ ?_, ht⟩
    rw [again]
    exact visited

section Load
variable {bytes junk : Bytes} {db : Db} {clock : Nat → Int}
  (room : junk.length = aofRecordMax)
include room

def startCursor (bytes : Bytes) (db : Db) (junk : Bytes) : Cursor :=
  ⟨0, db, junk, bytes.drop aofFileHeaderSize⟩

theorem loadRounds_reaches {io : LoadIo} {t : LoadState}
    (visited : t ∈ loadRounds bytes db clock junk io) :
    Reaches clock (startCursor bytes db junk) (cursor t) ∧ t.record.length = aofRecordMax := by
  simp only [loadRounds] at visited
  split at visited
  · simp at visited
  · rename_i header
    rw [not_or, not_not] at header
    have behind := (readExact_done header.1).2.2
    have run := loadStates_reaches room visited
    rw [cursor, behind] at run
    exact run

theorem loadRounds_of_reaches {c : Cursor}
    (header : aofFileHeaderOk (bytes.take aofFileHeaderSize) = true)
    (reaches : Reaches clock (startCursor bytes db junk) c) (io : LoadIo) (ok : .error ∉ io.reads) :
    ∃ t ∈ loadRounds bytes db clock junk io, cursor t = c ∧ .error ∉ t.reads := by
  obtain ⟨reads, ok', read⟩ := readExact_eq ok bytes aofFileHeaderSize
  have long : min aofFileHeaderSize bytes.length = aofFileHeaderSize := by
    rw [← List.length_take]
    exact aofFileHeaderOk_length header
  rw [long] at read
  simp only [loadRounds, read, header, ne_eq, not_true_eq_false, Bool.true_eq_false, or_self,
    if_false]
  exact loadStates_of_reaches (Nat.lt_succ_self _) ok' room reaches

end Load

theorem loadLoop_overrun (clock : Nat → Int) (rounds : Nat) (s : LoadState) :
    loadLoop clock rounds s = .overrun ↔
      ∃ t ∈ loadStates clock rounds s, loadIteration clock t = .overrun := by
  induction rounds generalizing s with
  | zero => simp [loadLoop, loadStates]
  | succ rounds ih =>
    rw [loadLoop, loadStates]
    cases round : loadIteration clock s with
    | again s' =>
      simp only [List.mem_cons, exists_eq_or_imp, round, reduceCtorEq, false_or]
      exact ih s'
    | eof s' => simp [round]
    | broken s' reason => simp [round]
    | overrun => simp [round]

theorem aofLoad_overrun (bytes : Bytes) (db : Db) (clock : Nat → Int) (junk : Bytes) {io : LoadIo}
    (opened : io.opened = true) : aofLoad (some bytes) db clock junk io = .overrun ↔
      ∃ t ∈ loadRounds bytes db clock junk io, loadIteration clock t = .overrun := by
  simp only [aofLoad, loadRounds, opened, Bool.not_true, Bool.false_eq_true, if_false]
  by_cases header : (readExact io.reads bytes aofFileHeaderSize).ret ≠ some aofFileHeaderSize ∨
      aofFileHeaderOk (readExact io.reads bytes aofFileHeaderSize).got = false
  · simp only [header, if_true, List.not_mem_nil, false_and, exists_false, iff_false]
    split
    · simp
    · split <;> simp
  · have count := (readExact_done (not_not.mp (not_or.mp header).1)).1
    rw [aofFileHeaderSize_eq] at count
    have nonempty : ¬ bytes.length = 0 := by omega
    have long : ¬ bytes.length < aofFileHeaderSize := by
      rw [aofFileHeaderSize_eq]
      omega
    simp only [header, nonempty, long, if_false, ← loadLoop_overrun]
    split
    · rename_i ended
      simp only [ended]
    · rename_i ended
      simp only [ended, reduceCtorEq]

end ByteKV.LoadRounds
