import ByteKV.AofLoad

/-! What recovery makes of a log file: of one cut off anywhere, and of one that is
whole. The clock is arbitrary in the first part and stands still in the second. -/
namespace ByteKV.Recovery
open Config FileIo Database AofRecord AofLoad ExpiringLog

/-- A cut leaves whole records and a torn tail. -/
theorem image_take (createdMs : Int) (rs : List LogRecord) {cut : Nat}
    (hcut : aofFileHeaderSize ≤ cut) :
    ∃ n ≤ rs.length, (∀ k ≤ rs.length, k ≤ n ↔ (image createdMs (rs.take k)).length ≤ cut) ∧
      ∃ torn, TornTail torn ∧
        (image createdMs rs).take cut = image createdMs (rs.take n) ++ torn := by
  let words := rs.map LogRecord.bytes
  let behind := cut - aofFileHeaderSize
  have count : ∀ k ≤ rs.length, k ≤ PrefixCode.wholeBefore words behind ↔
      (image createdMs (rs.take k)).length ≤ cut := by
    intro k hk
    rw [PrefixCode.le_wholeBefore_iff (by simpa [words] using hk), image_length, ← List.map_take]
    omega
  have bounded : PrefixCode.wholeBefore words behind ≤ rs.length := by
    simpa [words] using PrefixCode.wholeBefore_le words behind
  refine ⟨PrefixCode.wholeBefore words behind, bounded, count,
    PrefixCode.tornBefore words behind, ?_, ?_⟩
  · exact PrefixCode.tornBefore_torn (by simp [words]) behind
  · have hdr : (aofFileHeader createdMs).length = aofFileHeaderSize := by simp
    rw [image, List.take_append, List.take_of_length_le (by omega), hdr,
      PrefixCode.take_flatten, image, List.append_assoc, ← List.map_take]

/-- Recovery of a log cut off behind its header: the bodies handed to replay are
those of the records before the cut, up to the first that fails. -/
theorem aofLoad_cut (createdMs : Int) (rs : List LogRecord) (cut : Nat)
    (hcut : aofFileHeaderSize ≤ cut) (db : Db) (clock : Nat → Int) (junk : Bytes)
    (hjunk : junk.length = aofRecordMax) (io : LoadIo) (hio : io.Ok) :
    ∃ n ≤ rs.length, (∀ k ≤ rs.length, k ≤ n ↔ (image createdMs (rs.take k)).length ≤ cut) ∧
      ∃ out, aofLoad (some ((image createdMs rs).take cut)) db clock junk io = .loaded out ∧
        out.handed = ((rs.take n).take (replayRecords clock 0 db (rs.take n)).tried).map
          (fun r => aofBody r.toRecord) ∧
        (∀ r ∈ rs, ∀ behind, decodeBody (aofBody r.toRecord ++ behind) =
          ⟨r.op.code.toNat, r.key, r.value, r.expireAt⟩) ∧
        ((replayRecords clock 0 db (rs.take n)).whole = true →
          out.handed = (rs.take n).map (fun r => aofBody r.toRecord) ∧
          out.validEnd = (image createdMs (rs.take n)).length ∧
          out.file = image createdMs (rs.take n)) := by
  obtain ⟨n, bounded, count, torn, tail, cutAt⟩ := image_take createdMs rs hcut
  have load := aofLoad_image createdMs (rs.take n) tail db clock hjunk hio
  rw [← cutAt] at load
  refine ⟨n, bounded, count, _, load, rfl, fun r _ behind => decodeBody_aofBody r behind, ?_⟩
  intro whole
  have all := count_of_whole.mp whole
  simp only [Replayed.tried, whole, all, Bool.not_true, Bool.toNat_false, Nat.add_zero,
    List.take_length, and_self]

def recordOf (op : AofOpcode) (key value : String) (expireAt : Int)
    (h : NulFree (ascii key) ∧ NulFree (ascii value) ∧
      (ascii key).length + (ascii value).length ≤ aofPayloadMax ∧ InI64 expireAt) : LogRecord :=
  ⟨⟨op, ascii key, ascii value, expireAt⟩, h.1, h.2.1, h.2.2.1, h.2.2.2⟩

def setRecord : LogRecord := recordOf .set "k" "v" 0 (by decide)

def delRecord : LogRecord := recordOf .del "k" "" 0 (by decide)

theorem aofLoad_cut_set :
    ∃ out, aofLoad (some ((image 0 [setRecord, delRecord]).take 70)) (dbCreate 0) (fun _ => 0)
        zeroed {} = .loaded out ∧
      out.handed = [aofBody setRecord.toRecord] := by
  obtain ⟨n, bounded, count, out, load, handed, -, -⟩ := aofLoad_cut 0 [setRecord, delRecord] 70
    (by decide) (dbCreate 0) (fun _ => 0) zeroed zeroed_length {} .silent
  have one : n = 1 := by
    have h1 := (count 1 (by decide)).mpr (by decide)
    have h2 := mt (count 2 (by decide)).mp (by decide)
    omega
  refine ⟨out, load, ?_⟩
  rw [handed, one]
  rfl

/-- A DEL of a key that is not there fails, and the record behind it is never
handed to replay, though both lie before the cut. -/
theorem aofLoad_stops_at_failed_del :
    (image 0 [delRecord, setRecord]).length ≤ 89 ∧
      ∃ out, aofLoad (some ((image 0 [delRecord, setRecord]).take 89)) (dbCreate 0) (fun _ => 0)
          zeroed {} = .loaded out ∧
        out.handed = [aofBody delRecord.toRecord] ∧
        out.handed ≠ [delRecord, setRecord].map fun r => aofBody r.toRecord := by
  have short : (image 0 [delRecord, setRecord]).length ≤ 89 := by decide
  have load := aofLoad_image 0 [delRecord, setRecord] (Or.inl rfl) (dbCreate 0) (fun _ => 0)
    zeroed_length .silent
  rw [List.append_nil] at load
  rw [List.take_of_length_le short]
  exact ⟨short, _, load, rfl, by decide⟩

/-! A whole log. -/

structure Clean (bytes : Bytes) (out : Loaded) : Prop where
  reason : out.reason = none
  validEnd : out.validEnd = bytes.length
  file : out.file = bytes
  quarantine : out.quarantine = none

def entries (rs : List LogRecord) : List (Entry Bytes Bytes Int) := rs.map fun r => r.entry

theorem image_take_length_lt (createdMs : Int) {rs : List LogRecord} {n : Nat}
    (h : n < rs.length) : (image createdMs (rs.take n)).length < (image createdMs rs).length := by
  have rest : 0 < (rs.drop n).length := by
    rw [List.length_drop]
    omega
  have bytes := LogRecord.length_le_flatten (rs.drop n)
  rw [← List.take_append_drop n rs, image_append, List.length_append, List.take_append_drop]
  omega

theorem replayRecords_count_le (clock : Nat → Int) (n : Nat) (db : Db) (rs : List LogRecord) :
    (replayRecords clock n db rs).count ≤ rs.length := by
  induction rs generalizing n db with
  | nil => exact Nat.zero_le _
  | cons r rs ih =>
    simp only [replayRecords]
    rcases replayOne (clock n) db r.toRecord with ⟨db', _ | _⟩
    · exact Nat.zero_le _
    · exact Nat.succ_le_succ (ih _ _)

section Whole
variable (createdMs : Int) (rs : List LogRecord) (t startMs : Int) {junk : Bytes} {io : LoadIo}
  (hjunk : junk.length = aofRecordMax) (hio : io.Ok)
include hjunk hio

/-- Loading a whole log rebuilds the map its entries replay to, and is clean
exactly when the log is intact. -/
theorem aofLoad_entries :
    ∃ out, aofLoad (some (image createdMs rs)) (dbCreate startMs) (fun _ => t) junk io =
        .loaded out ∧
      out.db.cells = (replay t (entries rs) .empty).1 ∧
      (Clean (image createdMs rs) out ↔ Intact t (entries rs)) := by
  have load := aofLoad_image createdMs rs (Or.inl rfl) (dbCreate startMs) (fun _ => t) hjunk hio
  rw [List.append_nil] at load
  have cells := replayRecords_cells t rs 0 (dbCreate startMs)
  rw [dbCreate_cells] at cells
  refine ⟨_, load, congrArg Prod.fst cells, ?_⟩
  rw [← (replay_holds t (entries rs)).1, entries, ← cells]
  constructor
  · intro clean
    by_contra failed
    have short := lt_of_le_of_ne (replayRecords_count_le (fun _ => t) 0 (dbCreate startMs) rs)
      (mt count_of_whole.mpr failed)
    exact absurd clean.validEnd (image_take_length_lt createdMs short).ne
  · intro (whole : (replayRecords (fun _ => t) 0 (dbCreate startMs) rs).whole = true)
    have all := count_of_whole.mp whole
    constructor <;> simp [all, Replayed.reason, whole]

end Whole

end ByteKV.Recovery
