import ByteKV.AofLoad

/-! Damage to a log in up to eight bytes next to each other: recovery stops at the
record it lies in, and refuses a file with a damaged header. -/
namespace ByteKV.BurstError
open Config FileIo Database AofRecord AofLoad

/-- Two files that differ in at most eight bytes next to each other, all of them between
the offsets `lo` and `hi`. -/
inductive Burst (lo hi : Nat) : Bytes → Bytes → Prop
  | alter (front mid mid' back : Bytes) (len : mid.length = mid'.length) (short : mid.length ≤ 8)
      (ne : mid ≠ mid') (low : lo ≤ front.length) (high : front.length + mid.length ≤ hi) :
      Burst lo hi (front ++ (mid ++ back)) (front ++ (mid' ++ back))

namespace Burst
variable {lo hi : Nat} {s t : Bytes} (burst : Burst lo hi s t)
include burst

theorem length_eq : s.length = t.length := by
  obtain ⟨front, mid, mid', back, len, -⟩ := burst
  simp only [List.length_append, len]

theorem ne : s ≠ t := by
  obtain ⟨front, mid, mid', back, len, -, ne, -⟩ := burst
  simpa using ne

theorem crc64_ne (crc : UInt64) (p : Bytes) :
    Crc64.crc64 crc (p ++ s) ≠ Crc64.crc64 crc (p ++ t) := by
  obtain ⟨front, mid, mid', back, len, short, ne, -⟩ := burst
  have seen := Crc64.crc64_burst crc (p ++ front) back len short ne
  rwa [List.append_assoc, List.append_assoc] at seen

theorem decode_ne : BigEndian.decode s ≠ BigEndian.decode t :=
  fun same => burst.ne (BigEndian.decode_injective burst.length_eq same)

omit burst in
theorem inside {p m q file : Bytes} (burst : Burst lo hi (p ++ (m ++ q)) file)
    (low : p.length ≤ lo) (high : hi ≤ p.length + m.length) :
    ∃ m', file = p ++ (m' ++ q) ∧ Burst (lo - p.length) (hi - p.length) m m' := by
  generalize whole : p ++ (m ++ q) = f at burst
  obtain ⟨front, mid, mid', back, len, short, ne, lo_le, le_hi⟩ := burst
  -- The damaged bytes begin behind `p` and end before `q`.
  obtain ⟨i, rfl⟩ : p <+: front :=
    List.prefix_of_prefix_length_le ⟨_, whole⟩ (List.prefix_append _ _) (low.trans lo_le)
  rw [List.append_assoc, List.append_right_inj, ← List.append_assoc i] at whole
  rw [List.length_append] at lo_le le_hi
  obtain ⟨j, rfl⟩ : i ++ mid <+: m :=
    List.prefix_of_prefix_length_le (List.prefix_append _ _) ⟨q, whole⟩ (by
      rw [List.length_append]
      omega)
  rw [List.append_assoc, List.append_right_inj] at whole
  subst whole
  refine ⟨i ++ (mid' ++ j), by simp only [List.append_assoc], ?_⟩
  rw [List.append_assoc]
  exact .alter i mid mid' j len short ne (by omega) (by omega)

end Burst

/-! The header. -/

theorem aofFileHeaderOk_iff {covered stored : Bytes} (len : covered.length = 24)
    (storedLen : stored.length = 8) :
    aofFileHeaderOk (covered ++ stored) = true ↔
      covered.take 8 = aofFileMagic ∧ BigEndian.decode ((covered.drop 8).take 4) = 1 ∧
        BigEndian.decode stored = (Crc64.crc64 0 covered).toNat := by
  have whole : (covered ++ stored).length = aofFileHeaderSize := by
    rw [List.length_append, len, storedLen, aofFileHeaderSize_eq]
  have magic : (covered ++ stored).take 8 = covered.take 8 :=
    List.take_append_of_le_length (by omega)
  have version : ((covered ++ stored).drop 8).take 4 = (covered.drop 8).take 4 := by
    rw [List.drop_append_of_le_length (by omega), List.take_append_of_le_length]
    rw [List.length_drop]
    omega
  simp only [aofFileHeaderOk, whole, magic, version, List.take_left' len, List.drop_left' len,
    List.take_of_length_le storedLen.le, Bool.and_eq_true, decide_eq_true_eq, true_and]

theorem header_refused {hdr hdr' : Bytes} (header : aofFileHeaderOk hdr = true)
    (damage : Burst 0 24 hdr hdr' ∨ Burst 24 32 hdr hdr') : aofFileHeaderOk hdr' = false := by
  have len : hdr.length = 32 := by
    rw [aofFileHeaderOk_length header, aofFileHeaderSize_eq]
  obtain ⟨covered, stored, rfl, coveredLen, storedLen⟩ :
      ∃ covered stored, hdr = covered ++ stored ∧ covered.length = 24 ∧ stored.length = 8 :=
    ⟨hdr.take 24, hdr.drop 24, (List.take_append_drop _ _).symm, by simp [len], by simp [len]⟩
  obtain ⟨-, -, holds⟩ := (aofFileHeaderOk_iff coveredLen storedLen).mp header
  rw [Bool.eq_false_iff]
  intro accepted
  rcases damage with damage | damage
  · obtain ⟨covered', rfl, burst⟩ := Burst.inside (p := []) (q := stored) damage (Nat.zero_le _)
      (by simp [coveredLen])
    have coveredLen' := burst.length_eq.symm.trans coveredLen
    obtain ⟨-, -, holds'⟩ := (aofFileHeaderOk_iff coveredLen' storedLen).mp accepted
    exact burst.crc64_ne 0 [] (UInt64.toNat_inj.mp (holds.symm.trans holds'))
  · rw [← List.append_nil stored] at damage
    obtain ⟨stored', rfl, burst⟩ := damage.inside coveredLen.le (by omega)
    rw [List.append_nil] at accepted
    have storedLen' := burst.length_eq.symm.trans storedLen
    obtain ⟨-, -, holds'⟩ := (aofFileHeaderOk_iff coveredLen storedLen').mp accepted
    exact burst.decode_ne (holds.trans holds'.symm)

/-! The records. -/

def replayAll (clock : Nat → Int) : (n : Nat) → Db → List Record → Option Db
  | _, db, [] => some db
  | n, db, r :: rs =>
      match aofReplayRecord db (clock n) (aofBody r) (aofBody r).length with
      | .done db true => replayAll clock (n + 1) db rs
      | _ => none

theorem replayAll_append (clock : Nat → Int) (n : Nat) (db : Db) (rs qs : List Record) :
    replayAll clock n db (rs ++ qs) =
      (replayAll clock n db rs).bind fun db => replayAll clock (n + rs.length) db qs := by
  induction rs generalizing n db with
  | nil => rfl
  | cons r rs ih =>
    simp only [List.cons_append, replayAll]
    split
    · rw [ih, List.length_cons, Nat.add_right_comm, Nat.add_assoc]
    · rfl

theorem length_le_logBytes (rs : List Record) : rs.length ≤ (logBytes rs).length := by
  induction rs with
  | nil => exact Nat.zero_le _
  | cons r rs ih =>
    rw [logBytes_cons, List.length_append, Record.bytes, aofFrame_length, List.length_cons]
    omega

theorem aofSerialize_room {r : Record} {image : Bytes}
    (fits : aofSerialize aofRecordMax r = some image) :
    aofHeaderSize + (aofBody r).length ≤ aofRecordMax := by
  have room := aofSerialize_isSome_iff.mp (Option.isSome_of_mem fits)
  rw [aofPayloadMax_eq] at room
  rw [aofBody_length, aofHeaderSize_eq, aofRecordMax_eq]
  omega

theorem aofReplayRecord_behind (db : Db) (nowMs : Int) {r : Record} {image : Bytes}
    (fits : aofSerialize aofRecordMax r = some image) (behind : Bytes) :
    aofReplayRecord db nowMs (aofBody r ++ behind) (aofBody r).length =
      aofReplayRecord db nowMs (aofBody r) (aofBody r).length := by
  have room := aofSerialize_isSome_iff.mp (Option.isSome_of_mem fits)
  have alone := aofReplayRecord_readBack db nowMs room []
  rw [List.append_nil] at alone
  rw [alone, aofReplayRecord_readBack db nowMs room]

theorem loadLoop_damaged (clock : Nat → Int) (before : List Record)
    (fits : ∀ r ∈ before, aofSerialize aofRecordMax r = some r.bytes) {stored body : Bytes}
    (tail : Bytes) (len : stored.length = aofCrcSize)
    (room : aofHeaderSize + body.length ≤ aofRecordMax)
    (wrong : BigEndian.decode stored ≠ (Crc64.crc64 0 (aofCovered body)).toNat)
    {rounds : Nat} (enough : before.length < rounds) {s : LoadState} {db : Db}
    (ok : .error ∉ s.reads) (buffer : s.record.length = aofRecordMax)
    (rest : s.rest = logBytes before ++ (stored ++ (aofCovered body ++ tail)))
    (replayed : replayAll clock s.records s.db before = some db) :
    ∃ s', loadLoop clock rounds s = .ended s' (some .crcMismatch) ∧ s'.db = db ∧
      s'.validEnd = s.validEnd + (logBytes before).length ∧
      s'.records = s.records + before.length ∧ s'.handed = s.handed ++ before.map aofBody := by
  induction before generalizing rounds s with
  | nil =>
    obtain ⟨rounds, rfl⟩ := Nat.exists_eq_succ_of_ne_zero (Nat.ne_of_gt enough)
    obtain ⟨reads, -, round⟩ := loadIteration_framed clock ok buffer len room rest
    rw [loadRecord_mismatch clock len rfl wrong] at round
    rw [loadLoop, round]
    refine ⟨_, rfl, Option.some.inj replayed, ?_, ?_, ?_⟩ <;> simp
  | cons r before ih =>
    obtain ⟨rounds, rfl⟩ := Nat.exists_eq_succ_of_ne_zero (Nat.ne_of_gt (Nat.zero_lt_of_lt enough))
    have image := fits r List.mem_cons_self
    have short := aofSerialize_room image
    rw [logBytes_cons, List.append_assoc] at rest
    obtain ⟨reads, record, ok', buffer', framed, round⟩ :=
      loadIteration_frame clock ok buffer short rest
    rw [loadRecord_frame clock framed, aofReplayRecord_behind _ _ image] at round
    rw [replayAll] at replayed
    split at replayed
    · rename_i db' done
      simp only [done] at round
      obtain ⟨s', ended, hdb, hend, hrecords, hhanded⟩ := ih
        (fun q hq => fits q (List.mem_cons_of_mem _ hq))
        (show before.length < rounds by simpa using enough)
        (s := ⟨reads, _, record, db', s.validEnd + (aofHeaderSize + (aofBody r).length),
          s.records + 1, s.handed ++ [aofBody r]⟩) ok' buffer' rfl replayed
      refine ⟨s', by rw [loadLoop, round]; exact ended, hdb, ?_, ?_, ?_⟩
      · rw [hend, logBytes_cons, List.length_append, Record.bytes, aofFrame_length,
          aofHeaderSize_eq, Nat.add_assoc]
      · rw [hrecords, List.length_cons, Nat.add_right_comm, Nat.add_assoc]
      · rw [hhanded, List.append_assoc]
        rfl
    · cases replayed

theorem record_damaged {p q : Bytes} {r : Record} {file : Bytes}
    (damage : Burst p.length (p.length + aofCrcSize) (p ++ (r.bytes ++ q)) file ∨
      Burst (p.length + aofHeaderSize) (p.length + r.bytes.length) (p ++ (r.bytes ++ q)) file) :
    ∃ stored body, stored.length = aofCrcSize ∧ body.length = (aofBody r).length ∧
      file = p ++ (stored ++ (aofCovered body ++ q)) ∧
      BigEndian.decode stored ≠ (Crc64.crc64 0 (aofCovered body)).toNat := by
  obtain ⟨stored, hstored⟩ : ∃ stored,
      stored = BigEndian.encode 8 (Crc64.crc64 0 (aofCovered (aofBody r))).toNat := ⟨_, rfl⟩
  obtain ⟨word, hword⟩ : ∃ word, word = BigEndian.encode 4 ((aofBody r).length % 2 ^ 32) := ⟨_, rfl⟩
  have storedLen : stored.length = aofCrcSize := by simp [hstored, aofCrcSize]
  have wordLen : word.length = 4 := by simp [hword]
  have holds : BigEndian.decode stored = (Crc64.crc64 0 (aofCovered (aofBody r))).toNat := by
    rw [hstored, BigEndian.decode_encode_of_lt (UInt64.toNat_lt _)]
  have bytes : r.bytes = stored ++ (word ++ aofBody r) := by
    rw [Record.bytes, aofFrame, hstored, aofCovered, hword]
  rw [bytes] at damage
  rcases damage with damage | damage
  · rw [List.append_assoc] at damage
    obtain ⟨stored', rfl, burst⟩ := damage.inside (le_refl _) (by rw [storedLen])
    have len := burst.length_eq.symm.trans storedLen
    refine ⟨stored', aofBody r, len, rfl, by rw [aofCovered, hword], ?_⟩
    rw [← holds]
    exact burst.decode_ne.symm
  · rw [← List.append_assoc stored, List.append_assoc _ (aofBody r),
      ← List.append_assoc p] at damage
    obtain ⟨body, rfl, burst⟩ := damage.inside (by
      simp only [List.length_append, storedLen, wordLen, aofHeaderSize_eq, aofCrcSize]
      omega) (by
      simp only [List.length_append]
      omega)
    have len : body.length = (aofBody r).length := burst.length_eq.symm
    have covered : aofCovered body = word ++ body := by rw [aofCovered, len, hword]
    refine ⟨stored, body, storedLen, len, by simp only [covered, List.append_assoc], ?_⟩
    rw [holds, covered, aofCovered, ← hword]
    exact fun same => burst.crc64_ne 0 word (UInt64.toNat_inj.mp same)

theorem readExact_header {reads : List ReadOutcome} (ok : .error ∉ reads) {first : Bytes}
    (len : first.length = aofFileHeaderSize) (behind : Bytes) :
    ∃ reads', .error ∉ reads' ∧ readExact reads (first ++ behind) aofFileHeaderSize =
      ⟨some aofFileHeaderSize, first, behind, reads'⟩ := by
  obtain ⟨reads', ok', read⟩ := readExact_eq ok (first ++ behind) aofFileHeaderSize
  rw [List.take_left' len, List.drop_left' len, List.length_append, len,
    Nat.min_eq_left (Nat.le_add_right _ _)] at read
  exact ⟨reads', ok', read⟩

theorem header_long {first : Bytes} (len : first.length = aofFileHeaderSize) (behind : Bytes) :
    (first ++ behind).length ≠ 0 ∧ ¬ (first ++ behind).length < aofFileHeaderSize := by
  rw [List.length_append, len, aofFileHeaderSize_eq]
  omega

section File
variable {hdr : Bytes} (header : aofFileHeaderOk hdr = true) {rs : List Record}
  (images : ∀ r ∈ rs, aofSerialize aofRecordMax r = some r.bytes) {clock : Nat → Int} {db : Db}
  (whole : (replayAll clock 0 db rs).isSome) {junk : Bytes} (buffer : junk.length = aofRecordMax)
  {io : LoadIo} (opened : io.opened = true) (reads : .error ∉ io.reads)
include header opened reads

theorem aofLoad_header_damaged {file : Bytes} (damage : Burst 0 24 (hdr ++ logBytes rs) file ∨
    Burst 24 32 (hdr ++ logBytes rs) file) : aofLoad (some file) db clock junk io = .refused := by
  have hdrLen := aofFileHeaderOk_length header
  have inside {lo hi : Nat} (damage : Burst lo hi (hdr ++ logBytes rs) file)
      (high : hi ≤ aofFileHeaderSize) : ∃ hdr', file = hdr' ++ logBytes rs ∧ Burst lo hi hdr hdr' :=
    Burst.inside (p := []) damage (Nat.zero_le _) (by simpa [hdrLen] using high)
  have refused : ∃ hdr', file = hdr' ++ logBytes rs ∧ hdr.length = hdr'.length ∧
      aofFileHeaderOk hdr' = false := by
    rcases damage with damage | damage
    · obtain ⟨hdr', rfl, burst⟩ := inside damage (by decide)
      exact ⟨hdr', rfl, burst.length_eq, header_refused header (Or.inl burst)⟩
    · obtain ⟨hdr', rfl, burst⟩ := inside damage (by decide)
      exact ⟨hdr', rfl, burst.length_eq, header_refused header (Or.inr burst)⟩
  obtain ⟨hdr', rfl, same, refused⟩ := refused
  have len := same.symm.trans hdrLen
  obtain ⟨reads', -, read⟩ := readExact_header reads len (logBytes rs)
  obtain ⟨nonempty, small⟩ := header_long len (logBytes rs)
  simp only [aofLoad, nonempty, small, opened, read, refused, if_false,
    Bool.not_true, Bool.false_eq_true, or_true, if_true]

include images whole buffer

theorem aofLoad_record_damaged {file : Bytes} {before after : List Record} {r : Record}
    (cut : rs = before ++ r :: after) (damage :
      Burst (hdr ++ logBytes before).length ((hdr ++ logBytes before).length + aofCrcSize)
        (hdr ++ logBytes rs) file ∨
      Burst ((hdr ++ logBytes before).length + aofHeaderSize)
        ((hdr ++ logBytes before).length + r.bytes.length) (hdr ++ logBytes rs) file) :
    ∃ out, aofLoad (some file) db clock junk io = .loaded out ∧
      out.reason = some .crcMismatch ∧ out.validEnd = (hdr ++ logBytes before).length ∧
      out.records = before.length ∧ out.handed = before.map aofBody ∧
      replayAll clock 0 db before = some out.db := by
  have hdrLen := aofFileHeaderOk_length header
  subst cut
  rw [logBytes_append, logBytes_cons, ← List.append_assoc] at damage
  obtain ⟨stored, body, len, bodyLen, rfl, wrong⟩ := record_damaged damage
  obtain ⟨db', replayed⟩ : ∃ db', replayAll clock 0 db before = some db' := by
    rw [replayAll_append] at whole
    cases h : replayAll clock 0 db before with
    | none => simp [h] at whole
    | some db' => exact ⟨db', rfl⟩
  have room : aofHeaderSize + body.length ≤ aofRecordMax := by
    rw [bodyLen]
    exact aofSerialize_room (images r (by simp))
  have enough : before.length <
      (logBytes before ++ (stored ++ (aofCovered body ++ logBytes after))).length + 1 := by
    have := length_le_logBytes before
    rw [List.length_append]
    omega
  rw [List.append_assoc]
  obtain ⟨reads', ok, read⟩ := readExact_header reads hdrLen
    (logBytes before ++ (stored ++ (aofCovered body ++ logBytes after)))
  obtain ⟨nonempty, small⟩ := header_long hdrLen
    (logBytes before ++ (stored ++ (aofCovered body ++ logBytes after)))
  obtain ⟨s, done, hdb, hend, hrecords, hhanded⟩ := loadLoop_damaged clock before
    (fun q hq => images q (by simp [hq])) (logBytes after) len room wrong enough
    (s := ⟨reads', _, junk, db, aofFileHeaderSize, 0, []⟩) ok buffer rfl
    replayed
  simp only [aofLoad, nonempty, small, opened, read, header, done, if_false, Bool.not_true,
    Bool.false_eq_true, Bool.true_eq_false, ne_eq, not_true_eq_false, or_self]
  refine ⟨_, rfl, rfl, ?_, ?_, ?_, ?_⟩
  · simp only [hend, List.length_append, hdrLen]
  · simp only [hrecords, Nat.zero_add]
  · simp only [hhanded, List.nil_append]
  · simp only [hdb, replayed]

/-- Damage of up to eight bytes next to each other is found. In the header it makes
`aof_load` refuse the file; in the body or the stored checksum of a record it ends the
replay there, with every earlier record handed on and no other. -/
theorem aofLoad_burst {file : Bytes} :
    (Burst 0 24 (hdr ++ logBytes rs) file ∨ Burst 24 32 (hdr ++ logBytes rs) file →
      aofLoad (some file) db clock junk io = .refused) ∧
    ∀ before r after, rs = before ++ r :: after → ∀ start, start = (hdr ++ logBytes before).length →
      Burst start (start + aofCrcSize) (hdr ++ logBytes rs) file ∨
        Burst (start + aofHeaderSize) (start + r.bytes.length) (hdr ++ logBytes rs) file →
      ∃ out, aofLoad (some file) db clock junk io = .loaded out ∧
        out.reason = some .crcMismatch ∧ out.validEnd = start ∧ out.records = before.length ∧
        out.handed = before.map aofBody ∧ replayAll clock 0 db before = some out.db := by
  refine ⟨aofLoad_header_damaged header opened reads, ?_⟩
  rintro before r after cut start rfl damage
  exact aofLoad_record_damaged header images whole buffer opened reads cut damage

end File

def sampleRecord : Record := ⟨.set, ascii "k", ascii "v", 0⟩

theorem aofLoad_burst_last :
    ∃ file, file ≠ logFile 0 [sampleRecord, sampleRecord] ∧
      ∃ out, aofLoad (some file) (dbCreate 0) (fun _ => 0) zeroed {} = .loaded out ∧
        out.reason = some .crcMismatch ∧ out.validEnd = 61 ∧ out.records = 1 := by
  have images : ∀ r ∈ [sampleRecord, sampleRecord], aofSerialize aofRecordMax r = some r.bytes := by
    simp only [List.forall_mem_cons, List.not_mem_nil, false_imp_iff, implies_true, and_true]
    decide +kernel
  obtain ⟨front, whole, len⟩ : ∃ front, logFile 0 [sampleRecord, sampleRecord] =
      front ++ (ascii "v" ++ []) ∧ front.length = 89 :=
    ⟨(logFile 0 [sampleRecord, sampleRecord]).take 89, by decide +kernel, by decide +kernel⟩
  have damaged := (@aofLoad_burst (aofFileHeader 0) (aofFileHeader_ok 0) [sampleRecord, sampleRecord]
    images (fun _ => 0) (dbCreate 0) (by decide +kernel) zeroed zeroed_length {} rfl (by simp)
    (front ++ (ascii "w" ++ []))).2
    [sampleRecord] sampleRecord [] rfl 61 (by decide +kernel) (Or.inr (by
      rw [← logFile, whole]
      exact .alter front (ascii "v") (ascii "w") [] rfl (by decide) (by decide) (by simp [len])
        (by rw [len]; decide +kernel)))
  obtain ⟨out, load, reason, validEnd, records, -⟩ := damaged
  exact ⟨_, by rw [whole]; simp; decide, out, load, reason, validEnd, records⟩

end ByteKV.BurstError
