import ByteKV.LoadRounds

/-! What `aof_load` and the decoder make of a file that no server wrote: where the body of
a record is read to, which lengths the decoder lets through, and which records it takes. -/
namespace ByteKV.UntrustedLog
open Config FileIo Database AofRecord AofLoad LoadRounds

/-- The second call of `read_exact` in a round: the length it is asked for, and the bytes it
puts behind the first 12 of the record buffer. -/
structure BodyRead where
  len : Nat
  got : Bytes

def bodyRead (s : LoadState) : Option BodyRead :=
  let h := readExact s.reads s.rest aofHeaderSize
  match h.ret with
  | none => none
  | some nread =>
      if nread < aofHeaderSize then none
      else
        let bodyLen := BigEndian.decode (((store s.record 0 h.got).drop aofCrcSize).take aofBodylenSize)
        some ⟨bodyLen, (readExact h.reads h.rest bodyLen).got⟩

structure BodyRead.Inside (read : BodyRead) (record : Bytes) : Prop where
  len : aofHeaderSize + read.len ≤ aofRecordMax
  stored : aofHeaderSize + read.got.length ≤ record.length

/-- There is a length word at the front, and it announces more than the buffer has room for. -/
def Oversized (rest : Bytes) : Prop :=
  aofHeaderSize ≤ rest.length ∧
    aofRecordMax < aofHeaderSize + BigEndian.decode ((rest.drop aofCrcSize).take aofBodylenSize)

/-- In every round of every load of the file, however the read calls go. -/
def BodiesInside (bytes : Bytes) (db : Db) (clock : Nat → Int) (junk : Bytes) : Prop :=
  ∀ io, ∀ s ∈ loadRounds bytes db clock junk io, ∀ read, bodyRead s = some read → read.Inside s.record

theorem bodyRead_some {s : LoadState} {read : BodyRead} (h : bodyRead s = some read) :
    aofHeaderSize ≤ s.rest.length ∧
      read.len = BigEndian.decode ((s.rest.drop aofCrcSize).take aofBodylenSize) ∧
      read.got.length ≤ read.len := by
  rcases header : readExact s.reads s.rest aofHeaderSize with ⟨_ | nread, got, behind, reads⟩
  · simp only [bodyRead, header] at h
    cases h
  · obtain ⟨count, hgot, -⟩ := readExact_done (congrArg ReadResult.ret header)
    simp only [header] at hgot
    simp only [bodyRead, header] at h
    split at h
    · cases h
    · rename_i long
      have there : aofHeaderSize ≤ s.rest.length := by omega
      obtain rfl := Option.some.inj h
      rw [hgot, bodyLen_eq s.record there]
      exact ⟨there, rfl, readExact_le _ _ _⟩

theorem bodyRead_of_long {s : LoadState} (ok : .error ∉ s.reads)
    (long : aofHeaderSize ≤ s.rest.length) :
    ∃ read, bodyRead s = some read ∧
      read.len = BigEndian.decode ((s.rest.drop aofCrcSize).take aofBodylenSize) := by
  obtain ⟨reads, -, header⟩ := readExact_eq ok s.rest aofHeaderSize
  rw [Nat.min_eq_left long] at header
  simp only [bodyRead, header, Nat.lt_irrefl, if_false, bodyLen_eq s.record long]
  exact ⟨_, rfl, rfl⟩

section File
variable {bytes junk : Bytes} {db : Db} {clock : Nat → Int} (buffer : junk.length = aofRecordMax)
  (header : aofFileHeaderOk (bytes.take aofFileHeaderSize) = true)
include buffer header

/-- The bodies are read inside the record buffer exactly when the loop comes to no length
word that announces more. -/
theorem bodiesInside_iff : BodiesInside bytes db clock junk ↔
    ¬ ∃ c, Reaches clock (startCursor bytes db junk) c ∧ Oversized c.rest := by
  constructor
  · rintro inside ⟨c, reaches, long, large⟩
    obtain ⟨s, visited, rfl, ok⟩ := loadRounds_of_reaches buffer header reaches {} (by simp)
    obtain ⟨read, hread, len⟩ := bodyRead_of_long ok long
    have fits := (inside _ s visited read hread).len
    rw [len] at fits
    exact absurd large (not_lt.mpr fits)
  · intro never io s visited read hread
    obtain ⟨reaches, room⟩ := loadRounds_reaches buffer visited
    obtain ⟨long, len, stored⟩ := bodyRead_some hread
    have fits : aofHeaderSize + read.len ≤ aofRecordMax := by
      by_contra large
      exact never ⟨cursor s, reaches, long, by rwa [len, not_le] at large⟩
    exact ⟨fits, by omega⟩

end File

/-- An expired record, a fresh one, and 20 bytes of a third. -/
def tornLog : Bytes :=
  logFile 0 [⟨.setex, ascii "k", ascii "v", 1⟩, ⟨.set, ascii "x", ascii "y", 0⟩] ++
    (aofFrame (aofBody ⟨.del, ascii "k", [], 0⟩)).take 20

/-- The load takes two records and stops at the third. -/
def TakesTwo (bytes : Bytes) : Prop :=
  (aofLoad (some bytes) (dbCreate 0) (fun _ => 2) zeroed {}).loaded?.map
    (fun out => (out.records, out.reason)) = some (2, some .truncatedBody)

instance (bytes : Bytes) : Decidable (TakesTwo bytes) := inferInstanceAs (Decidable (_ = _))

theorem bodiesInside_tornLog :
    BodiesInside tornLog (dbCreate 0) (fun _ => 2) zeroed ∧ TakesTwo tornLog := by
  have header : aofFileHeaderOk (tornLog.take aofFileHeaderSize) = true := by decide +kernel
  refine ⟨(bodiesInside_iff zeroed_length header).mpr ?_, by decide +kernel⟩
  rintro ⟨c, reaches, long, large⟩
  obtain ⟨s, visited, rfl, -⟩ := loadRounds_of_reaches zeroed_length header reaches {} (by simp)
  have fits : (loadRounds tornLog (dbCreate 0) (fun _ => 2) zeroed {}).all fun s =>
      BigEndian.decode ((s.rest.drop aofCrcSize).take aofBodylenSize) ≤ 17 := by decide +kernel
  have short := of_decide_eq_true (List.all_eq_true.mp fits s visited)
  exact absurd large (not_lt.mpr ((Nat.add_le_add_left short _).trans (by decide)))

/-- A header, and a record of one byte more than the buffer has room for. -/
def oversizedFile : Bytes :=
  aofFileHeader 0 ++ (List.replicate 8 0 ++ BigEndian.encode 4 4085 ++ List.replicate 4085 0)

theorem bodyRead_oversized :
    aofFileHeaderOk (oversizedFile.take aofFileHeaderSize) = true ∧
      (∃ s ∈ loadRounds oversizedFile (dbCreate 0) (fun _ => 0) zeroed {}, ∃ read,
        bodyRead s = some read ∧ aofRecordMax < aofHeaderSize + read.len ∧
        s.record.length < aofHeaderSize + read.got.length) ∧
      aofLoad (some oversizedFile) (dbCreate 0) (fun _ => 0) zeroed {} = .overrun ∧
      ¬ BodiesInside oversizedFile (dbCreate 0) (fun _ => 0) zeroed := by
  have outside : ∃ s ∈ loadRounds oversizedFile (dbCreate 0) (fun _ => 0) zeroed {}, ∃ read,
      bodyRead s = some read ∧ aofRecordMax < aofHeaderSize + read.len ∧
        s.record.length < aofHeaderSize + read.got.length := by
    have found : ((loadRounds oversizedFile (dbCreate 0) (fun _ => 0) zeroed {}).any fun s =>
        (bodyRead s).any fun read => aofRecordMax < aofHeaderSize + read.len &&
          s.record.length < aofHeaderSize + read.got.length) = true := by decide +kernel
    simpa only [List.any_eq_true, Option.any_eq_true, Bool.and_eq_true,
      decide_eq_true_eq] using found
  refine ⟨by decide +kernel, outside, ?_, fun inside => ?_⟩
  · have overrun : (match aofLoad (some oversizedFile) (dbCreate 0) (fun _ => 0) zeroed {} with
        | .overrun => true
        | _ => false) = true := by decide +kernel
    generalize aofLoad (some oversizedFile) (dbCreate 0) (fun _ => 0) zeroed {} = result at overrun ⊢
    cases result <;> first | rfl | cases overrun
  · obtain ⟨s, visited, read, hread, large, -⟩ := outside
    exact absurd (inside {} s visited read hread).len (not_le.mpr large)

/-! The lengths in a body. -/

def NotExpired (nowMs : Int) (f : BodyFields) : Prop := ¬ (f.expireAt > 0 ∧ f.expireAt < nowMs)

instance (nowMs : Int) (f : BodyFields) : Decidable (NotExpired nowMs f) :=
  inferInstanceAs (Decidable (¬ _))

/-- The call comes to its length check and passes it. -/
def PassesLengthCheck (nowMs : Int) (buf : Bytes) (bodyLen : Nat) : Prop :=
  NotExpired nowMs (readFields buf) ∧
    ¬ (((readFields buf).keyLen + (readFields buf).valLen) % 2 ^ 32 > msgMax ∨
      (aofBodyFixed + (readFields buf).keyLen + (readFields buf).valLen) % 2 ^ 32 ≠ bodyLen)

instance (nowMs : Int) (buf : Bytes) (bodyLen : Nat) :
    Decidable (PassesLengthCheck nowMs buf bodyLen) :=
  inferInstanceAs (Decidable (_ ∧ _))

theorem aofReplayRecord_eq (db : Db) (nowMs : Int) (buf : Bytes) (bodyLen : Nat) :
    aofReplayRecord db nowMs buf bodyLen =
      if PassesLengthCheck nowMs buf bodyLen then
        if (readFields buf).keyLen > msgMax ∨ (readFields buf).valLen > msgMax ∨
            aofBodyFixed + (readFields buf).keyLen + (readFields buf).valLen > buf.length then .overrun
        else .done (replayDispatch db (decodeBody buf)).1 (replayDispatch db (decodeBody buf)).2
      else .done db (!decide (NotExpired nowMs (readFields buf))) := by
  simp only [aofReplayRecord, PassesLengthCheck, NotExpired]
  by_cases expired : (readFields buf).expireAt > 0 ∧ (readFields buf).expireAt < nowMs
  · simp [expired]
  · simp only [expired, not_false_eq_true, true_and, if_false, decide_true, Bool.not_true, ite_not]

/-- The lengths add up as integers, and the two strings fit their buffers. -/
structure Lengths (f : BodyFields) (bodyLen : Nat) : Prop where
  sum : aofBodyFixed + f.keyLen + f.valLen = bodyLen
  bound : f.keyLen + f.valLen ≤ msgMax
  key : f.keyLen ≤ msgMax
  val : f.valLen ≤ msgMax

/-- The sum of the lengths comes out 2^32 above what it should be. -/
def Wraps (f : BodyFields) (bodyLen : Nat) : Prop :=
  2 ^ 32 ≤ f.keyLen + f.valLen ∧ aofBodyFixed + f.keyLen + f.valLen = 2 ^ 32 + bodyLen

theorem readFields_lt (buf : Bytes) :
    (readFields buf).keyLen < 2 ^ 16 ∧ (readFields buf).valLen < 2 ^ 32 := by
  have bound {s : Bytes} {w : Nat} (h : s.length ≤ w) : BigEndian.decode s < 256 ^ w :=
    (BigEndian.decode_lt s).trans_le (Nat.pow_le_pow_right (by norm_num) h)
  exact ⟨bound (List.length_take_le 2 _), bound (List.length_take_le 4 _)⟩

theorem passes_iff {nowMs : Int} {buf : Bytes} {bodyLen : Nat}
    (short : aofHeaderSize + bodyLen ≤ aofRecordMax) :
    PassesLengthCheck nowMs buf bodyLen ↔ NotExpired nowMs (readFields buf) ∧
      (Lengths (readFields buf) bodyLen ∨ Wraps (readFields buf) bodyLen) := by
  obtain ⟨klen, vlen⟩ := readFields_lt buf
  rw [aofHeaderSize_eq, aofRecordMax_eq] at short
  refine and_congr Iff.rfl ?_
  rw [not_or, not_not, not_lt, Wraps, msgMax_eq, aofBodyFixed_eq]
  constructor
  · rintro ⟨bound, sum⟩
    by_cases wraps : 2 ^ 32 ≤ (readFields buf).keyLen + (readFields buf).valLen
    · exact Or.inr ⟨wraps, by omega⟩
    · refine Or.inl ⟨?_, ?_, ?_, ?_⟩ <;> simp only [aofBodyFixed_eq, msgMax_eq] <;> omega
  · rintro (⟨sum, bound, -, -⟩ | ⟨wraps, sum⟩)
    · rw [aofBodyFixed_eq] at sum
      rw [msgMax_eq] at bound
      omega
    · omega

theorem Wraps.val_gt {buf : Bytes} {bodyLen : Nat} (wraps : Wraps (readFields buf) bodyLen) :
    msgMax < (readFields buf).valLen := by
  obtain ⟨klen, vlen⟩ := readFields_lt buf
  have sum := wraps.1
  rw [msgMax_eq]
  omega

/-- The length check is exact but for the sums that wrap. -/
theorem lengthCheck_iff (nowMs : Int) (body behind : Bytes)
    (short : aofHeaderSize + body.length ≤ aofRecordMax) :
    (PassesLengthCheck nowMs (body ++ behind) body.length →
        Lengths (readFields (body ++ behind)) body.length) ↔
      ¬ (NotExpired nowMs (readFields (body ++ behind)) ∧
        Wraps (readFields (body ++ behind)) body.length) := by
  rw [passes_iff short]
  constructor
  · rintro exact ⟨fresh, wraps⟩
    exact absurd (exact ⟨fresh, Or.inr wraps⟩).val (not_le.mpr wraps.val_gt)
  · rintro none ⟨fresh, lengths | wraps⟩
    · exact lengths
    · exact absurd ⟨fresh, wraps⟩ none

theorem lengthCheck_ordinary :
    PassesLengthCheck 0 (aofBody ⟨.set, ascii "k", ascii "v", 0⟩ ++ []) 17 ∧
      Lengths (readFields (aofBody ⟨.set, ascii "k", ascii "v", 0⟩ ++ [])) 17 := by
  have passes : PassesLengthCheck 0 (aofBody ⟨.set, ascii "k", ascii "v", 0⟩ ++ []) 17 := by
    decide +kernel
  refine ⟨passes,
    (lengthCheck_iff 0 (aofBody ⟨.set, ascii "k", ascii "v", 0⟩) [] (by decide)).mpr ?_ passes⟩
  exact fun wraps => absurd wraps.2.val_gt (by decide +kernel)

/-- A body of 15 bytes: one byte of key, and 2^32 - 1 of value. -/
def wrappingBody : Bytes := [1, 0, 1, 255, 255, 255, 255, 0, 0, 0, 0, 0, 0, 0, 0]

theorem lengthCheck_wraps :
    aofHeaderSize + wrappingBody.length ≤ aofRecordMax ∧
      PassesLengthCheck 0 wrappingBody wrappingBody.length ∧
      aofBodyFixed + (readFields wrappingBody).keyLen + (readFields wrappingBody).valLen ≠
        wrappingBody.length ∧
      msgMax < (readFields wrappingBody).keyLen + (readFields wrappingBody).valLen := by
  decide +kernel

/-- The copies leave their buffers exactly where the check lets a sum through that wraps. -/
theorem aofReplayRecord_overrun (db : Db) (nowMs : Int) (body behind : Bytes)
    (short : aofHeaderSize + body.length ≤ aofRecordMax) :
    aofReplayRecord db nowMs (body ++ behind) body.length = .overrun ↔
      NotExpired nowMs (readFields (body ++ behind)) ∧
        Wraps (readFields (body ++ behind)) body.length := by
  rw [aofReplayRecord_eq]
  by_cases passes : PassesLengthCheck nowMs (body ++ behind) body.length
  · rw [if_pos passes]
    obtain ⟨fresh, lengths | wraps⟩ := (passes_iff short).mp passes
    · have inside : ¬ aofBodyFixed + (readFields (body ++ behind)).keyLen +
          (readFields (body ++ behind)).valLen > (body ++ behind).length := by
        rw [lengths.sum, List.length_append]
        omega
      rw [if_neg (not_or.mpr ⟨not_lt.mpr lengths.key, not_or.mpr ⟨not_lt.mpr lengths.val, inside⟩⟩)]
      simp only [reduceCtorEq, false_iff, not_and]
      exact fun _ wraps => absurd lengths.val (not_le.mpr wraps.val_gt)
    · rw [if_pos (Or.inr (Or.inl wraps.val_gt))]
      exact iff_of_true rfl ⟨fresh, wraps⟩
  · rw [if_neg passes]
    simp only [reduceCtorEq, false_iff]
    exact fun wraps => passes ((passes_iff short).mpr ⟨wraps.1, Or.inr wraps.2⟩)

/-! The records that are taken. -/

/-- What every record a server writes is like, by its own bytes. -/
structure WellFormed (body : Bytes) : Prop where
  fixed : aofBodyFixed ≤ body.length
  opcode : ∃ op : AofOpcode, (readFields body).opcode = op.code.toNat
  sum : body.length = aofBodyFixed + (readFields body).keyLen + (readFields body).valLen

theorem readFields_append {body : Bytes} (long : aofBodyFixed ≤ body.length) (behind : Bytes) :
    readFields (body ++ behind) = readFields body := by
  rw [aofBodyFixed_eq] at long
  have field (i w : Nat) (h : i + w ≤ 15) :
      ((body ++ behind).drop i).take w = (body.drop i).take w := by
    rw [List.drop_append_of_le_length (by omega), List.take_append_of_le_length]
    rw [List.length_drop]
    omega
  simp only [readFields, BodyFields.mk.injEq]
  refine ⟨?_, ?_, ?_, ?_⟩
  · rw [List.getD_append _ _ _ _ (by omega)]
  · rw [field 1 2 (by omega)]
  · rw [field 3 4 (by omega)]
  · rw [field 7 8 (by omega)]

theorem replayDispatch_opcode {db : Db} {d : Decoded} (ok : (replayDispatch db d).2 = true) :
    ∃ op : AofOpcode, d.opcode = op.code.toNat := by
  unfold replayDispatch at ok
  split at ok
  · exact ⟨.set, ‹_›⟩
  · exact ⟨.del, ‹_›⟩
  · exact ⟨.setex, ‹_›⟩
  · exact ⟨.expire, ‹_›⟩
  · exact ⟨.persist, ‹_›⟩
  · cases ok

/-- Every record that a load of the file counts, and moves its valid end past, is well formed. -/
def TakesWellFormed (bytes : Bytes) (db : Db) (clock : Nat → Int) (junk : Bytes) : Prop :=
  ∀ io, ∀ s ∈ loadRounds bytes db clock junk io, ∀ s', loadIteration clock s = .again s' →
    ∃ body, s'.records = s.records + 1 ∧ s'.validEnd = s.validEnd + (aofHeaderSize + body.length) ∧
      s'.handed = s.handed ++ [body] ∧ WellFormed body

theorem accepted_wellFormed {db db' : Db} {nowMs : Int} {body behind : Bytes}
    (short : aofHeaderSize + body.length ≤ aofRecordMax)
    (fresh : NotExpired nowMs (readFields (body ++ behind)))
    (accepted : aofReplayRecord db nowMs (body ++ behind) body.length = .done db' true) :
    WellFormed body := by
  rw [aofReplayRecord_eq] at accepted
  by_cases passes : PassesLengthCheck nowMs (body ++ behind) body.length
  · rw [if_pos passes] at accepted
    obtain ⟨-, lengths | wraps⟩ := (passes_iff short).mp passes
    · have long : aofBodyFixed ≤ body.length := by
        rw [← lengths.sum, Nat.add_assoc]
        exact Nat.le_add_right _ _
      split at accepted
      · cases accepted
      · have dispatched := replayDispatch_opcode (congrArg (fun
          | ReplayResult.done _ ok => ok
          | .overrun => false) accepted)
        have own := readFields_append long behind
        exact ⟨long, own ▸ dispatched, (own ▸ lengths.sum).symm⟩
    · rw [if_pos (Or.inr (Or.inl wraps.val_gt))] at accepted
      cases accepted
  · rw [if_neg passes] at accepted
    have expired := (ReplayResult.done.inj accepted).2
    simp [fresh] at expired

section File
variable {bytes junk : Bytes} {db : Db} {clock : Nat → Int} (buffer : junk.length = aofRecordMax)
  (header : aofFileHeaderOk (bytes.take aofFileHeaderSize) = true)
include buffer header

/-- Every record that is taken is well formed exactly when the loop comes to no malformed one
whose stamp, wherever it is read from, has passed. -/
theorem takesWellFormed_iff : TakesWellFormed bytes db clock junk ↔
    ¬ ∃ c body tail, Reaches clock (startCursor bytes db junk) c ∧ c.rest = aofFrame body ++ tail ∧
      aofHeaderSize + body.length ≤ aofRecordMax ∧ ¬ WellFormed body ∧
      ¬ NotExpired (clock c.records) (readFields (body ++ c.stale body)) := by
  constructor
  · rintro good ⟨c, body, tail, reaches, front, fits, malformed, expired⟩
    obtain ⟨s, visited, rfl, ok⟩ := loadRounds_of_reaches buffer header reaches {} (by simp)
    have room := (loadRounds_reaches buffer visited).2
    have shortcut : aofReplayRecord (cursor s).db (clock (cursor s).records)
        (body ++ (cursor s).stale body) body.length = .done (cursor s).db true := by
      rw [aofReplayRecord_eq, if_neg fun passes => expired passes.1]
      simp only [expired, decide_false, Bool.not_false]
    obtain ⟨s', again, -, -, handed⟩ :=
      loadIteration_again ok room (.record tail _ front fits shortcut)
    obtain ⟨body', -, -, handed', wellFormed⟩ := good {} s visited s' again
    rw [handed, List.append_cancel_left_eq, List.cons.injEq] at handed'
    exact malformed (handed'.1 ▸ wellFormed)
  · intro never io s visited s' again
    obtain ⟨reaches, room⟩ := loadRounds_reaches buffer visited
    obtain ⟨body, takes, records, validEnd, handed⟩ := loadIteration_takes room again
    refine ⟨body, records, validEnd, handed, ?_⟩
    generalize cursor s' = c' at takes
    obtain ⟨tail, db', front, fits, replayed⟩ := takes
    by_contra malformed
    refine never ⟨cursor s, body, tail, reaches, front, fits, malformed, fun fresh => ?_⟩
    exact malformed (accepted_wellFormed fits fresh replayed)

end File

instance (body : Bytes) : Decidable (WellFormed body) :=
  decidable_of_iff (aofBodyFixed ≤ body.length ∧
      (∃ op ∈ [AofOpcode.set, .del, .setex, .expire, .persist],
        (readFields body).opcode = op.code.toNat) ∧
      body.length = aofBodyFixed + (readFields body).keyLen + (readFields body).valLen)
    ⟨fun ⟨fixed, ⟨op, _, opcode⟩, sum⟩ => ⟨fixed, ⟨op, opcode⟩, sum⟩,
      fun h => ⟨h.fixed, h.opcode.imp fun op opcode => ⟨by cases op <;> decide, opcode⟩, h.sum⟩⟩

theorem body_front {body tail : Bytes} (fits : aofHeaderSize + body.length ≤ aofRecordMax) :
    ((aofFrame body ++ tail).drop aofHeaderSize).take (BigEndian.decode
      (((aofFrame body ++ tail).drop aofCrcSize).take aofBodylenSize)) = body := by
  have small : body.length < 2 ^ 32 := by
    rw [aofHeaderSize_eq, aofRecordMax_eq] at fits
    omega
  have frame : aofFrame body ++ tail =
      BigEndian.encode 8 (Crc64.crc64 0 (aofCovered body)).toNat ++
        (BigEndian.encode 4 (body.length % 2 ^ 32) ++ (body ++ tail)) := by
    simp only [aofFrame, aofCovered, List.append_assoc]
  rw [decode_bodyLen small, frame, ← List.append_assoc,
    List.drop_left' (by simp [aofHeaderSize_eq]), List.take_left]

theorem takesWellFormed_tornLog :
    TakesWellFormed tornLog (dbCreate 0) (fun _ => 2) zeroed ∧ TakesTwo tornLog := by
  have header : aofFileHeaderOk (tornLog.take aofFileHeaderSize) = true := by decide +kernel
  refine ⟨(takesWellFormed_iff zeroed_length header).mpr ?_, by decide +kernel⟩
  rintro ⟨c, body, tail, reaches, front, fits, malformed, -⟩
  obtain ⟨s, visited, rfl, -⟩ := loadRounds_of_reaches zeroed_length header reaches {} (by simp)
  let bodyLen (s : LoadState) := BigEndian.decode ((s.rest.drop aofCrcSize).take aofBodylenSize)
  have good : (loadRounds tornLog (dbCreate 0) (fun _ => 2) zeroed {}).all fun s =>
      s.rest.length < aofHeaderSize + bodyLen s ∨
        WellFormed ((s.rest.drop aofHeaderSize).take (bodyLen s)) := by decide +kernel
  have front' : s.rest = aofFrame body ++ tail := front
  rcases of_decide_eq_true (List.all_eq_true.mp good s visited) with short | wellFormed
  · have small : body.length < 2 ^ 32 := by
      rw [aofHeaderSize_eq, aofRecordMax_eq] at fits
      omega
    simp only [bodyLen, front', decode_bodyLen small, List.length_append, aofFrame_length,
      aofHeaderSize_eq] at short
    omega
  · simp only [bodyLen, front', body_front fits] at wellFormed
    exact malformed wellFormed

def takesEmpty (clock : Nat → Int) (s : LoadState) : Bool :=
  match loadIteration clock s with
  | .again s' => s'.handed = s.handed ++ [[]]
  | _ => false

theorem takesEmpty_again {clock : Nat → Int} {s : LoadState} (empty : takesEmpty clock s = true) :
    ∃ s', loadIteration clock s = .again s' ∧ s'.handed = s.handed ++ [[]] := by
  unfold takesEmpty at empty
  split at empty
  · rename_i s' again
    exact ⟨s', again, of_decide_eq_true empty⟩
  · cases empty

/-- An expired record, and 12 bytes of zeros behind it. -/
def zeroTail : Bytes :=
  logFile 0 [⟨.setex, ascii "k", ascii "v", 1⟩] ++ List.replicate 12 0

/-- The zeros are taken as a second record: their checksum and their body length are zero,
and the stamp is the one the first record left in the buffer. -/
theorem takes_zeros :
    aofFileHeaderOk (zeroTail.take aofFileHeaderSize) = true ∧
      ((aofLoad (some zeroTail) (dbCreate 0) (fun _ => 2) zeroed {}).loaded?.map fun out =>
        (out.records, out.validEnd, out.handed.getLast?, out.reason)) =
      some (2, zeroTail.length, some [], none) ∧
      ¬ TakesWellFormed zeroTail (dbCreate 0) (fun _ => 2) zeroed := by
  refine ⟨by decide +kernel, by decide +kernel, fun good => ?_⟩
  have taken : (loadRounds zeroTail (dbCreate 0) (fun _ => 2) zeroed {}).any
      (takesEmpty fun _ => 2) = true := by decide +kernel
  obtain ⟨s, visited, empty⟩ := List.any_eq_true.mp taken
  obtain ⟨s', again, none⟩ := takesEmpty_again empty
  obtain ⟨body, -, -, handed, wellFormed⟩ := good {} s visited s' again
  rw [none, List.append_cancel_left_eq, List.cons.injEq] at handed
  exact absurd (handed.1 ▸ wellFormed).fixed (by decide)

end ByteKV.UntrustedLog
