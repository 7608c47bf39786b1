import ByteKV.BigEndian
import ByteKV.Config
import ByteKV.Crc64
import ByteKV.Database
import ByteKV.PrefixCode

/-! The record format of aof.c: `aof_serialize`, the file header, and the decoder
that replays one record body. Field widths, casts and wrap-around follow the
source; a copy that would leave its buffer is reported as an overrun. -/
namespace ByteKV.AofRecord
open Config Database

inductive AofOpcode
  | set
  | del
  | setex
  | expire
  | persist
  deriving DecidableEq, Repr

def AofOpcode.code : AofOpcode → UInt8
  | .set => 1
  | .del => 2
  | .setex => 3
  | .expire => 4
  | .persist => 5

/-- The arguments of `aof_append`. -/
structure Record where
  op : AofOpcode
  key : Bytes
  value : Bytes
  expireAt : Int
  deriving DecidableEq, Repr

/-- `(uint64_t)` of a signed value, and `(int64_t)` of an unsigned one. -/
def toU64 (x : Int) : Nat := (x % 2 ^ 64).toNat

def toI64 (x : Nat) : Int := if x < 2 ^ 63 then x else x - 2 ^ 64

def InI64 (x : Int) : Prop := -2 ^ 63 ≤ x ∧ x < 2 ^ 63

instance (x : Int) : Decidable (InI64 x) := inferInstanceAs (Decidable (_ ∧ _))

theorem inI64_zero : InI64 0 := by decide

theorem toU64_lt (x : Int) : toU64 x < 256 ^ 8 := by
  simp only [toU64]
  omega

theorem toI64_toU64 {x : Int} (h : InI64 x) : toI64 (toU64 x) = x := by
  simp only [InI64] at h
  simp only [toI64, toU64]
  by_cases low : (x % 2 ^ 64).toNat < 2 ^ 63 <;> simp only [low, if_true, if_false] <;> omega

def aofBody (r : Record) : Bytes :=
  r.op.code :: (BigEndian.encode 2 (r.key.length % 2 ^ 16) ++
    BigEndian.encode 4 (r.value.length % 2 ^ 32) ++ BigEndian.encode 8 (toU64 r.expireAt) ++
    r.key ++ r.value)

/-- The length word and the body, which is what the checksum covers. -/
def aofCovered (body : Bytes) : Bytes := BigEndian.encode 4 (body.length % 2 ^ 32) ++ body

theorem aofCovered_of_word {word body : Bytes} (len : word.length = aofBodylenSize)
    (announced : body.length = BigEndian.decode word) : aofCovered body = word ++ body := by
  have lt : BigEndian.decode word < 2 ^ 32 := by
    have := BigEndian.decode_lt word
    rwa [len] at this
  have same : BigEndian.encode 4 (BigEndian.decode word) = word := by
    have back := BigEndian.encode_decode word
    rwa [len] at back
  rw [aofCovered, announced, Nat.mod_eq_of_lt lt, same]

/-- A record on disk: checksum, length word, body. -/
def aofFrame (body : Bytes) : Bytes :=
  BigEndian.encode 8 (Crc64.crc64 0 (aofCovered body)).toNat ++ aofCovered body

/-- `none` is the source's -1: the record does not fit the caller's buffer. -/
def aofSerialize (bufSz : Nat) (r : Record) : Option Bytes :=
  if aofHeaderSize + aofBodyFixed + r.key.length + r.value.length > bufSz then none
  else some (aofFrame (aofBody r))

def Record.bytes (r : Record) : Bytes := aofFrame (aofBody r)

theorem aofSerialize_bytes {bufSz : Nat} {r : Record} {buf : Bytes}
    (h : aofSerialize bufSz r = some buf) : buf = r.bytes := by
  rw [aofSerialize] at h
  split at h
  · simp at h
  · exact (Option.some.inj h).symm

def logBytes (rs : List Record) : Bytes := (rs.map Record.bytes).flatten

@[simp] theorem logBytes_nil : logBytes [] = [] := rfl

@[simp] theorem logBytes_cons (r : Record) (rs : List Record) :
    logBytes (r :: rs) = r.bytes ++ logBytes rs := rfl

@[simp] theorem logBytes_append (rs qs : List Record) :
    logBytes (rs ++ qs) = logBytes rs ++ logBytes qs := by
  simp [logBytes]

@[simp] theorem logBytes_singleton (r : Record) : logBytes [r] = r.bytes := by
  simp [logBytes]

def aofFileMagic : Bytes := ascii "BYTEKVAF"

def aofFileHeader (createdMs : Int) : Bytes :=
  let hdr := aofFileMagic ++ BigEndian.encode 4 1 ++ BigEndian.encode 4 0 ++
    BigEndian.encode 8 (toU64 createdMs)
  hdr ++ BigEndian.encode 8 (Crc64.crc64 0 hdr).toNat

def logFile (createdMs : Int) (rs : List Record) : Bytes := aofFileHeader createdMs ++ logBytes rs

/-- The checks of `aof_read_file_header` on the bytes it read. -/
def aofFileHeaderOk (hdr : Bytes) : Bool :=
  hdr.length = aofFileHeaderSize &&
    (hdr.take 8 = aofFileMagic &&
      (BigEndian.decode ((hdr.drop 8).take 4) = 1 &&
        BigEndian.decode ((hdr.drop 24).take 8) = (Crc64.crc64 0 (hdr.take 24)).toNat))

/-! Decoding. -/

structure BodyFields where
  opcode : Nat
  keyLen : Nat
  valLen : Nat
  expireAt : Int
  deriving DecidableEq, Repr

/-- The fixed fields, read from wherever `buf` points. -/
def readFields (buf : Bytes) : BodyFields where
  opcode := (buf.getD 0 0).toNat
  keyLen := BigEndian.decode ((buf.drop 1).take 2)
  valLen := BigEndian.decode ((buf.drop 3).take 4)
  expireAt := toI64 (BigEndian.decode ((buf.drop 7).take 8))

theorem toI64_i64 {x : Nat} (h : x < 256 ^ 8) : InI64 (toI64 x) := by
  simp only [toI64, InI64]
  split <;> omega

theorem readFields_i64 (buf : Bytes) : InI64 (readFields buf).expireAt := by
  refine toI64_i64 ((BigEndian.decode_lt _).trans_le (Nat.pow_le_pow_right (by norm_num) ?_))
  simp

/-- What the decoder passes on: the opcode byte, the two C strings, the stamp. -/
structure Decoded where
  opcode : Nat
  key : Bytes
  val : Bytes
  expireAt : Int
  deriving DecidableEq, Repr

def decodeBody (buf : Bytes) : Decoded :=
  let f := readFields buf
  { opcode := f.opcode
    key := cstr ((buf.drop aofBodyFixed).take f.keyLen)
    val := cstr ((buf.drop (aofBodyFixed + f.keyLen)).take f.valLen)
    expireAt := f.expireAt }

def replayDispatch (db : Db) (d : Decoded) : Db × Bool :=
  match d.opcode with
  | 1 => dbSet db d.key d.val
  | 2 => dbDel db d.key
  | 3 => dbSetex db d.key d.val d.expireAt
  | 4 => dbKeyExpire db d.key d.expireAt
  | 5 => dbPersist db d.key
  | _ => (db, false)

inductive ReplayResult
  | done (db : Db) (ok : Bool)
  | overrun

/-- `aof_replay_record`. `buf` is everything behind the pointer, so it may be
longer than `bodyLen`; the sums of lengths are 32-bit. -/
def aofReplayRecord (db : Db) (nowMs : Int) (buf : Bytes) (bodyLen : Nat) : ReplayResult :=
  let f := readFields buf
  if f.expireAt > 0 ∧ f.expireAt < nowMs then .done db true
  else if (f.keyLen + f.valLen) % 2 ^ 32 > msgMax ∨
      (aofBodyFixed + f.keyLen + f.valLen) % 2 ^ 32 ≠ bodyLen then .done db false
  else if f.keyLen > msgMax ∨ f.valLen > msgMax ∨
      aofBodyFixed + f.keyLen + f.valLen > buf.length then .overrun
  else
    let (db, ok) := replayDispatch db (decodeBody buf)
    .done db ok

/-! Records that a log can hold. -/

def aofPayloadMax : Nat := aofRecordMax - aofHeaderSize - aofBodyFixed

structure LogRecord extends Record where
  key_nulFree : NulFree key
  value_nulFree : NulFree value
  fits : key.length + value.length ≤ aofPayloadMax
  expireAt_i64 : InI64 expireAt

@[simp] theorem aofPayloadMax_eq : aofPayloadMax = 4069 := rfl

theorem aofSerialize_some {r : Record} (h : r.key.length + r.value.length ≤ aofPayloadMax) :
    aofSerialize aofRecordMax r = some (aofFrame (aofBody r)) := by
  rw [aofPayloadMax_eq] at h
  rw [aofSerialize, if_neg]
  simp only [aofHeaderSize_eq, aofBodyFixed_eq, aofRecordMax_eq]
  omega

theorem aofSerialize_none {r : Record} (h : aofPayloadMax < r.key.length + r.value.length) :
    aofSerialize aofRecordMax r = none := by
  rw [aofPayloadMax_eq] at h
  rw [aofSerialize, if_pos]
  simp only [aofHeaderSize_eq, aofBodyFixed_eq, aofRecordMax_eq]
  omega

theorem aofSerialize_isSome_iff {r : Record} :
    (aofSerialize aofRecordMax r).isSome ↔ r.key.length + r.value.length ≤ aofPayloadMax := by
  constructor
  · intro h
    by_contra long
    simp [aofSerialize_none (not_le.mp long)] at h
  · intro h
    simp [aofSerialize_some h]

@[simp] theorem aofBody_length (r : Record) :
    (aofBody r).length = 15 + r.key.length + r.value.length := by
  simp [aofBody]
  omega

@[simp] theorem aofFrame_length (body : Bytes) : (aofFrame body).length = 12 + body.length := by
  simp [aofFrame, aofCovered]
  omega

@[simp] theorem aofFileHeader_length (createdMs : Int) : (aofFileHeader createdMs).length = 32 := by
  simp [aofFileHeader, aofFileMagic, ascii]

theorem decode_field {p q : Bytes} {i w x : Nat} (hp : p.length = i) (hx : x < 256 ^ w) :
    BigEndian.decode (((p ++ (BigEndian.encode w x ++ q)).drop i).take w) = x := by
  rw [← hp, List.drop_left, List.take_left' (BigEndian.encode_length w x),
    BigEndian.decode_encode_of_lt hx]

theorem decode_bodyLen {body : Bytes} (h : body.length < 2 ^ 32) (behind : Bytes) :
    BigEndian.decode (((aofFrame body ++ behind).drop aofCrcSize).take aofBodylenSize) =
      body.length := by
  rw [aofFrame, aofCovered, Nat.mod_eq_of_lt h, List.append_assoc, List.append_assoc]
  exact decode_field (by simp [aofCrcSize]) (by simpa [aofBodylenSize] using h)

def frames : Set Bytes := {w | ∃ body : Bytes, body.length < 2 ^ 32 ∧ w = aofFrame body}

theorem frames_prefixFree : PrefixCode.PrefixFree frames := by
  rintro _ ⟨body, h, rfl⟩ _ ⟨body', h', rfl⟩ ⟨behind, eq⟩
  have len : body.length = body'.length := by
    rw [← decode_bodyLen h behind, eq, ← decode_bodyLen h' [], List.append_nil]
  exact List.IsPrefix.eq_of_length ⟨behind, eq⟩ (by simp [len])

theorem aofFileHeaderOk_length {hdr : Bytes} (header : aofFileHeaderOk hdr = true) :
    hdr.length = aofFileHeaderSize := by
  simp only [aofFileHeaderOk, Bool.and_eq_true, decide_eq_true_eq] at header
  exact header.1

theorem aofFileHeader_ok (createdMs : Int) : aofFileHeaderOk (aofFileHeader createdMs) = true := by
  have len := aofFileHeader_length createdMs
  have magic : aofFileMagic.length = 8 := rfl
  simp only [aofFileHeaderOk, aofFileHeaderSize_eq, len, Bool.and_eq_true, decide_eq_true_eq,
    true_and]
  refine ⟨?_, ?_, ?_⟩
  · simp only [aofFileHeader, List.append_assoc]
    rw [← magic, List.take_left]
  · simp only [aofFileHeader, List.append_assoc]
    exact decode_field magic (by norm_num)
  · have covered : (aofFileHeader createdMs).take 24 =
        aofFileMagic ++ BigEndian.encode 4 1 ++ BigEndian.encode 4 0 ++
          BigEndian.encode 8 (toU64 createdMs) := by
      rw [aofFileHeader]
      exact List.take_left' (by simp [magic])
    rw [covered, aofFileHeader, ← List.append_nil (BigEndian.encode 8 (UInt64.toNat _))]
    exact decode_field (by simp [magic]) (UInt64.toNat_lt _)

namespace LogRecord

def bytes (r : LogRecord) : Bytes := r.toRecord.bytes

theorem body_length_le (r : LogRecord) :
    aofHeaderSize + (aofBody r.toRecord).length ≤ aofRecordMax := by
  have room := r.fits
  rw [aofPayloadMax_eq] at room
  simp only [aofBody_length, aofHeaderSize_eq, aofRecordMax_eq]
  omega

theorem bytes_mem (r : LogRecord) : r.bytes ∈ frames := by
  have room := r.body_length_le
  rw [aofHeaderSize_eq, aofRecordMax_eq] at room
  exact ⟨aofBody r.toRecord, by omega, rfl⟩

theorem length_le_flatten (rs : List LogRecord) :
    rs.length ≤ (rs.map bytes).flatten.length := by
  induction rs with
  | nil => exact Nat.zero_le _
  | cons r rs ih =>
    simp only [List.length_cons, List.map_cons, List.flatten_cons, List.length_append, bytes,
      Record.bytes,
      aofFrame_length] at ih ⊢
    omega

end LogRecord

def image (createdMs : Int) (rs : List LogRecord) : Bytes :=
  aofFileHeader createdMs ++ (rs.map LogRecord.bytes).flatten

theorem image_append (createdMs : Int) (rs qs : List LogRecord) :
    image createdMs (rs ++ qs) = image createdMs rs ++ (qs.map LogRecord.bytes).flatten := by
  simp [image]

theorem image_eq_logFile (createdMs : Int) (rs : List LogRecord) :
    image createdMs rs = logFile createdMs (rs.map LogRecord.toRecord) := by
  simp only [image, logFile, logBytes, List.map_map]
  rfl

theorem image_length (createdMs : Int) (rs : List LogRecord) :
    (image createdMs rs).length = aofFileHeaderSize + (rs.map LogRecord.bytes).flatten.length := by
  rw [image, List.length_append, aofFileHeader_length, aofFileHeaderSize_eq]

section Body
variable {r : Record} (room : r.key.length + r.value.length ≤ aofPayloadMax) (behind : Bytes)
include room

theorem readFields_aofBody :
    readFields (aofBody r ++ behind) =
      ⟨r.op.code.toNat, r.key.length, r.value.length, toI64 (toU64 r.expireAt)⟩ := by
  rw [aofPayloadMax_eq] at room
  have klen : r.key.length % 2 ^ 16 = r.key.length := Nat.mod_eq_of_lt (by omega)
  have vlen : r.value.length % 2 ^ 32 = r.value.length := Nat.mod_eq_of_lt (by omega)
  simp only [readFields, aofBody, klen, vlen, List.append_assoc, List.cons_append,
    BodyFields.mk.injEq]
  refine ⟨rfl, ?_, ?_, ?_⟩
  · exact decode_field (p := [r.op.code]) rfl (by omega)
  · exact decode_field (p := r.op.code :: BigEndian.encode 2 r.key.length) (by simp) (by omega)
  · have stamp := decode_field (p := r.op.code :: (BigEndian.encode 2 r.key.length ++
      BigEndian.encode 4 r.value.length)) (q := r.key ++ (r.value ++ behind)) (i := 7)
      (by simp) (toU64_lt r.expireAt)
    simp only [List.cons_append, List.append_assoc] at stamp
    rw [stamp]

end Body

theorem aofBody_eq (r : Record) :
    ∃ fixed : Bytes, fixed.length = 15 ∧ aofBody r = fixed ++ (r.key ++ r.value) :=
  ⟨r.op.code :: (BigEndian.encode 2 (r.key.length % 2 ^ 16) ++
    BigEndian.encode 4 (r.value.length % 2 ^ 32) ++ BigEndian.encode 8 (toU64 r.expireAt)),
    by simp, by simp [aofBody]⟩

theorem key_slice (r : Record) (behind : Bytes) :
    ((aofBody r ++ behind).drop 15).take r.key.length = r.key := by
  obtain ⟨fixed, len, eq⟩ := aofBody_eq r
  rw [eq, List.append_assoc, ← len, List.drop_left, List.append_assoc, List.take_left]

theorem value_slice (r : Record) (behind : Bytes) :
    ((aofBody r ++ behind).drop (15 + r.key.length)).take r.value.length = r.value := by
  obtain ⟨fixed, len, eq⟩ := aofBody_eq r
  have front : (fixed ++ r.key).length = 15 + r.key.length := by simp [len]
  rw [eq, ← List.append_assoc, List.append_assoc, ← front, List.drop_left, List.take_left]

def Record.decoded (r : Record) : Decoded := ⟨r.op.code.toNat, r.key, r.value, r.expireAt⟩

/-- The record that replay makes of a body: its strings end at their first NUL. -/
def Record.readBack (r : Record) : Record :=
  ⟨r.op, cstr r.key, cstr r.value, toI64 (toU64 r.expireAt)⟩

theorem LogRecord.readBack_eq (r : LogRecord) : r.toRecord.readBack = r.toRecord := by
  rw [Record.readBack, cstr_of_nulFree r.key_nulFree, cstr_of_nulFree r.value_nulFree,
    toI64_toU64 r.expireAt_i64]

theorem decodeBody_readBack {r : Record} (room : r.key.length + r.value.length ≤ aofPayloadMax)
    (behind : Bytes) : decodeBody (aofBody r ++ behind) = r.readBack.decoded := by
  simp only [decodeBody, readFields_aofBody room, aofBodyFixed_eq, key_slice, value_slice,
    Record.decoded, Record.readBack]

theorem decodeBody_aofBody (r : LogRecord) (behind : Bytes) :
    decodeBody (aofBody r.toRecord ++ behind) = r.decoded := by
  rw [decodeBody_readBack r.fits, r.readBack_eq]

theorem AofOpcode.code_injective {op op' : AofOpcode} (same : op.code.toNat = op'.code.toNat) :
    op = op' := by
  revert same
  cases op <;> cases op' <;> decide

theorem LogRecord.bytes_injective : Function.Injective LogRecord.bytes := by
  intro r s same
  have covered := (List.append_inj same (by simp)).2
  have body : aofBody r.toRecord = aofBody s.toRecord := (List.append_inj covered (by simp)).2
  have decoded : r.decoded = s.decoded := by
    rw [← decodeBody_aofBody r [], body, decodeBody_aofBody]
  obtain ⟨code, key, value, stamp⟩ := Decoded.mk.inj decoded
  obtain ⟨⟨op, _, _, _⟩, _⟩ := r
  obtain ⟨⟨op', _, _, _⟩, _⟩ := s
  obtain rfl := AofOpcode.code_injective code
  cases key
  cases value
  cases stamp
  rfl

/-- Replay of one record: it is skipped once its deadline has passed. -/
def replayOne (nowMs : Int) (db : Db) (r : Record) : Db × Bool :=
  if r.expireAt > 0 ∧ r.expireAt < nowMs then (db, true) else replayDispatch db r.decoded

theorem aofReplayRecord_readBack (db : Db) (nowMs : Int) {r : Record}
    (room : r.key.length + r.value.length ≤ aofPayloadMax) (behind : Bytes) :
    aofReplayRecord db nowMs (aofBody r ++ behind) (aofBody r).length =
      .done (replayOne nowMs db r.readBack).1 (replayOne nowMs db r.readBack).2 := by
  have stamp : toI64 (toU64 r.expireAt) = r.readBack.expireAt := rfl
  rw [aofReplayRecord, readFields_aofBody room, decodeBody_readBack room, replayOne, stamp]
  rw [aofPayloadMax_eq] at room
  simp only [aofBody_length, aofBodyFixed_eq, msgMax_eq, List.length_append]
  split
  · rfl
  · rw [if_neg (by omega), if_neg (by omega)]

theorem aofReplayRecord_aofBody (db : Db) (nowMs : Int) (r : LogRecord) (behind : Bytes) :
    aofReplayRecord db nowMs (aofBody r.toRecord ++ behind) (aofBody r.toRecord).length =
      .done (replayOne nowMs db r.toRecord).1 (replayOne nowMs db r.toRecord).2 := by
  rw [aofReplayRecord_readBack db nowMs r.fits, r.readBack_eq]

/-! What a record means for the database as an expiring map. -/

open ExpiringLog

def Record.update (r : Record) : Op Bytes Int :=
  match r.op with
  | .set => setOp r.value
  | .del => .drop
  | .setex => setexOp r.value r.expireAt
  | .expire => expireOp r.expireAt
  | .persist => .keep

def Record.entry (r : Record) : Entry Bytes Bytes Int where
  key := r.key
  op := r.update
  deadline := if r.expireAt > 0 then some r.expireAt else none

theorem Record.entry_val {r : Record} {v : Bytes}
    (h : r.entry.op = .put v ∨ ∃ d, r.entry.op = .putTill v d) : v = r.value := by
  obtain ⟨op, key, value, expireAt⟩ := r
  cases op <;> simp only [Record.entry, Record.update, setOp, setexOp, expireOp] at h
  case setex | expire => split at h <;> simp_all
  all_goals simp_all

theorem Record.entry_due {r : Record} {d : Int}
    (h : r.entry.op = .till d ∨ ∃ v, r.entry.op = .putTill v d) : d = r.expireAt ∧ 0 < d := by
  obtain ⟨op, key, value, expireAt⟩ := r
  cases op <;> simp only [Record.entry, Record.update, setOp, setexOp, expireOp] at h
  case setex | expire =>
    split at h
    · simp_all
    · simp at h
  all_goals simp at h

theorem Record.entry_timely (r : Record) : r.entry.Timely := by
  intro d sets
  obtain ⟨rfl, pos⟩ := Record.entry_due sets
  exact if_pos pos

theorem Record.entry_stamped {r : Record} (h : r.op = .setex ∨ r.op = .expire ∨ r.expireAt = 0) :
    r.entry.Stamped := by
  obtain ⟨op, key, value, expireAt⟩ := r
  cases op with
  | setex => by_cases pos : expireAt > 0 <;> simp [Entry.Stamped, Record.entry, Record.update,
      setexOp, pos]
  | expire => by_cases pos : expireAt > 0 <;> simp [Entry.Stamped, Record.entry, Record.update,
      expireOp, pos]
  | _ =>
    have zero : expireAt = 0 := by simpa using h
    simp [Entry.Stamped, Record.entry, Record.update, setOp, zero]

theorem Record.past_deadline (r : Record) (t : Int) :
    past t r.entry.deadline = decide (r.expireAt > 0 ∧ r.expireAt < t) := by
  simp only [Record.entry]
  split <;> simp_all

theorem replayDispatch_cells (db : Db) (r : Record) :
    ((replayDispatch db r.decoded).1.cells, (replayDispatch db r.decoded).2) =
      r.entry.apply db.cells := by
  obtain ⟨op, key, value, expireAt⟩ := r
  cases op with
  | set => exact dbSet_cells db key value
  | del => exact dbDel_cells db key
  | setex => exact dbSetex_cells db key value expireAt
  | expire => exact dbKeyExpire_cells db key expireAt
  | persist => exact dbPersist_cells db key

theorem replayOne_cells (nowMs : Int) (db : Db) (r : Record) :
    ((replayOne nowMs db r).1.cells, (replayOne nowMs db r).2) =
      if past nowMs r.entry.deadline then (db.cells, true) else r.entry.apply db.cells := by
  rw [r.past_deadline, replayOne]
  by_cases skipped : r.expireAt > 0 ∧ r.expireAt < nowMs
  · simp [skipped]
  · rw [if_neg skipped, if_neg (by simpa using skipped), replayDispatch_cells]

end ByteKV.AofRecord
