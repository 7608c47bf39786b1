import ByteKV.AofRecord
import ByteKV.Words

/-! The text side of command.c: the response buffer, `parse_seconds` and the
tokenizer. A request is the C string at the start of its payload. -/
namespace ByteKV.CommandLine
open AofRecord

/-! Responses. -/

structure Respbuf where
  out : Bytes
  cap : Nat
  deriving DecidableEq, Repr

def respAdd (r : Respbuf) (s : Bytes) : Respbuf :=
  { r with out := r.out ++ s.take (r.cap - r.out.length) }

/-- `text` is the formatted string. vsnprintf keeps one byte for its NUL. -/
def respAddf (r : Respbuf) (text : Bytes) : Respbuf :=
  let avail := r.cap - r.out.length
  if avail = 0 then r
  else if text.length ≥ avail then { r with out := r.out ++ text.take (avail - 1) }
  else { r with out := r.out ++ text }

structure Respbuf.Fits (r : Respbuf) (outCap : Nat) : Prop where
  cap : r.cap = outCap
  length : r.out.length ≤ outCap

theorem respAdd_fits {r : Respbuf} {cap : Nat} (h : r.Fits cap) (s : Bytes) :
    (respAdd r s).Fits cap := by
  refine ⟨h.cap, ?_⟩
  have room := h.length
  have eq := h.cap
  simp only [respAdd, List.length_append, List.length_take]
  omega

theorem respAddf_fits {r : Respbuf} {cap : Nat} (h : r.Fits cap) (text : Bytes) :
    (respAddf r text).Fits cap := by
  have room := h.length
  have eq := h.cap
  simp only [respAddf]
  split
  · exact h
  · split
    · refine ⟨eq, ?_⟩
      simp only [List.length_append, List.length_take]
      omega
    · refine ⟨eq, ?_⟩
      simp only [List.length_append]
      omega

theorem respAddf_take {out text : Bytes} {cap : Nat} (room : out.length < cap) :
    respAddf ⟨out, cap⟩ text = ⟨(out ++ text).take (cap - 1), cap⟩ := by
  have left : ¬ cap - out.length = 0 := by omega
  simp only [respAddf, left, if_false]
  split
  · have behind : cap - out.length - 1 = cap - 1 - out.length := by omega
    rw [List.take_append, List.take_of_length_le (show out.length ≤ cap - 1 by omega), behind]
  · have whole : (out ++ text).length ≤ cap - 1 := by
      rw [List.length_append]
      omega
    rw [List.take_of_length_le whole]

theorem respAddf_out {cap : Nat} {text : Bytes} (fits : text.length < cap) :
    (respAddf ⟨[], cap⟩ text).out = text := by
  have room : ([] : Bytes).length < cap := by
    rw [List.length_nil]
    omega
  rw [respAddf_take room]
  exact List.take_of_length_le (by rw [List.nil_append]; omega)

/-! Seconds. -/

def isSpace (b : UInt8) : Bool := b = 32 || (9 ≤ b && b ≤ 13)

def isDigit (b : UInt8) : Bool := 48 ≤ b && b ≤ 57

def digitsValue (digits : Bytes) : Nat :=
  digits.foldl (fun acc b => acc * 10 + (b.toNat - 48)) 0

/-- strtoll(s, &end, 10) in the C locale: its value, and the string at `end`. -/
def strtoll (s : Bytes) : Int × Bytes :=
  let t := s.dropWhile isSpace
  let negative := t.head? = some 45
  let t := if negative ∨ t.head? = some 43 then t.tail else t
  let digits := t.takeWhile isDigit
  if digits = [] then (0, s)
  else
    let value : Int := if negative then -digitsValue digits else digitsValue digits
    (max (-2 ^ 63) (min value (2 ^ 63 - 1)), t.dropWhile isDigit)

def parseSeconds (s : Bytes) : Option Int :=
  let (seconds, stop) := strtoll s
  if stop = s ∨ stop ≠ [] ∨ seconds ≤ 0 then none else some seconds

/-- `now + seconds * 1000` in `int64_t`. -/
def expireTime (nowRealtimeMs seconds : Int) : Int := toI64 (toU64 (nowRealtimeMs + seconds * 1000))

theorem expireTime_i64 (nowRealtimeMs seconds : Int) :
    InI64 (expireTime nowRealtimeMs seconds) := by
  have := toU64_lt (nowRealtimeMs + seconds * 1000)
  exact toI64_i64 this

/-! Tokens. -/

def maxTokens : Nat := 8

def isDelim (b : UInt8) : Bool := b = 32 || b = 9

/-- `strsep(&p, " \t")`: the token, and `p` afterwards. -/
def strsep (s : Bytes) : Bytes × Option Bytes :=
  match s.dropWhile (!isDelim ·) with
  | [] => (s.takeWhile (!isDelim ·), none)
  | _ :: rest => (s.takeWhile (!isDelim ·), some rest)

/-- The loop of `tokenize_command`; `room` is what is left of `argv`. -/
def tokenizeLoop : (rounds : Nat) → (p : Option Bytes) → (room : Nat) → List Bytes
  | 0, _, _ => []
  | _, none, _ => []
  | rounds + 1, some s, room =>
      let (token, p) := strsep s
      if token = [] then tokenizeLoop rounds p room
      else if room ≤ 1 then [token]
      else token :: tokenizeLoop rounds p (room - 1)

def tokenizeCommand (cmd : Bytes) (max : Nat) : List Bytes :=
  tokenizeLoop (cmd.length + 1) (some cmd) max

theorem strsep_cases (s : Bytes) :
    (strsep s = (s, none) ∧ ∀ b ∈ s, isDelim b = false) ∨
      ∃ token d rest, s = token ++ d :: rest ∧ strsep s = (token, some rest) ∧
        isDelim d = true ∧ ∀ b ∈ token, isDelim b = false := by
  have front : ∀ b ∈ s.takeWhile (!isDelim ·), isDelim b = false :=
    fun b hb => by simpa using List.mem_takeWhile_imp hb
  have whole := List.takeWhile_append_dropWhile (p := (!isDelim ·)) (l := s)
  unfold strsep
  split
  · rename_i atEnd
    rw [atEnd, List.append_nil] at whole
    rw [whole] at front ⊢
    exact Or.inl ⟨rfl, front⟩
  · rename_i d rest cut
    have delim := List.head_dropWhile_not (p := (!isDelim ·)) (l := s) (by simp [cut])
    simp only [cut, List.head_cons, Bool.not_eq_false'] at delim
    rw [cut] at whole
    exact Or.inr ⟨_, d, rest, whole.symm, rfl, delim, front⟩

theorem tokenizeLoop_eq (rounds : Nat) (s : Bytes) {room : Nat} (enough : s.length < rounds)
    (pos : 0 < room) :
    tokenizeLoop rounds (some s) room = (Words.words isDelim s).take room := by
  induction rounds generalizing s room with
  | zero => exact absurd enough (Nat.not_lt_zero _)
  | succ rounds ih =>
    rw [tokenizeLoop]
    rcases strsep_cases s with ⟨cut, word⟩ | ⟨token, d, rest, rfl, cut, delim, word⟩
    · by_cases empty : s = []
      · subst empty
        cases rounds <;> simp [cut, tokenizeLoop]
      · rw [Words.words_of_none empty word,
          List.take_of_length_le (by simpa using Nat.succ_le_of_lt pos)]
        cases rounds <;> simp [cut, empty, tokenizeLoop]
    · rw [List.length_append, List.length_cons] at enough
      simp only [cut, Words.words_split delim word]
      by_cases empty : token = []
      · simp only [empty, if_true]
        exact ih rest (by omega) pos
      · simp only [empty, if_false]
        obtain ⟨n, rfl⟩ := Nat.exists_eq_succ_of_ne_zero pos.ne'
        rw [List.take_succ_cons]
        by_cases last : n = 0
        · simp [last]
        · rw [if_neg (by omega), Nat.succ_sub_one, ih rest (by omega) (by omega)]

theorem tokenizeCommand_eq (cmd : Bytes) {max : Nat} (pos : 0 < max) :
    tokenizeCommand cmd max = (Words.words isDelim cmd).take max :=
  tokenizeLoop_eq _ cmd (Nat.lt_succ_self _) pos

def IsWord (s : Bytes) : Prop := s ≠ [] ∧ NulFree s ∧ ∀ b ∈ s, isDelim b = false

instance (s : Bytes) : Decidable (IsWord s) :=
  decidable_of_iff (s ≠ [] ∧ (s.all fun b => b ≠ 0 && !isDelim b) = true) <| by
    refine and_congr_right fun _ => ?_
    simp only [List.all_eq_true, Bool.and_eq_true, decide_eq_true_eq, Bool.not_eq_true']
    exact ⟨fun all => ⟨fun nul => (all 0 nul).1 rfl, fun b hb => (all b hb).2⟩,
      fun word b hb => ⟨fun nul => word.1 (nul ▸ hb), word.2 b hb⟩⟩

theorem tokenizeCommand_words (payload : Bytes) :
    ∀ token ∈ tokenizeCommand (cstr payload) maxTokens, IsWord token := by
  intro token h
  rw [tokenizeCommand_eq _ (by decide)] at h
  obtain ⟨ne, free, sub⟩ := Words.words_mem (List.mem_of_mem_take h)
  exact ⟨ne, fun hz => cstr_nulFree payload (sub hz), free⟩

theorem tokenizeCommand_nulFree (payload : Bytes) :
    ∀ token ∈ tokenizeCommand (cstr payload) maxTokens, NulFree token :=
  fun token h => (tokenizeCommand_words payload token h).2.1

theorem isWord_replicate {n : Nat} {b : UInt8} (pos : n ≠ 0) (nul : b ≠ 0)
    (free : isDelim b = false) : IsWord (List.replicate n b) := by
  refine ⟨mt (List.replicate_eq_nil_iff b).mp pos,
    fun hz => nul (List.eq_of_mem_replicate hz).symm, fun c hc => ?_⟩
  rw [List.eq_of_mem_replicate hc, free]

theorem words_blank {a : Bytes} (ha : IsWord a) (rest : Bytes) :
    Words.words isDelim (a ++ 32 :: rest) = a :: Words.words isDelim rest := by
  rw [Words.words_split (by decide) ha.2.2, if_neg ha.1]

theorem tokenizeCommand_intercalate {ws : List Bytes} (all : ∀ w ∈ ws, IsWord w) :
    tokenizeCommand (cstr ([32].intercalate ws)) maxTokens = ws.take maxTokens := by
  have nul : NulFree ([32].intercalate ws) := by
    induction ws with
    | nil => exact List.not_mem_nil
    | cons w ws ih =>
      have later := ih fun v hv => all v (List.mem_cons_of_mem _ hv)
      have word := (all w List.mem_cons_self).2.1
      cases ws with
      | nil => rwa [List.intercalate_singleton]
      | cons v ws =>
        simp only [NulFree, List.intercalate_cons_cons, List.mem_append, not_or]
        exact ⟨⟨word, by decide⟩, later⟩
  have split := Words.words_intercalate (show isDelim 32 = true by decide)
    fun w hw => ⟨(all w hw).1, (all w hw).2.2⟩
  rw [cstr_of_nulFree nul, tokenizeCommand_eq _ (by decide), split]

theorem tokenizeCommand_length (payload : Bytes) :
    (tokenizeCommand (cstr payload) maxTokens).flatten.length +
      (tokenizeCommand (cstr payload) maxTokens).length ≤ payload.length + 1 := by
  rw [tokenizeCommand_eq _ (by decide)]
  have fewer := List.take_sublist maxTokens (Words.words isDelim (cstr payload))
  have room := Words.words_length isDelim (cstr payload)
  have cut := cstr_length_le payload
  exact (Nat.add_le_add fewer.flatten.length_le fewer.length_le).trans (by omega)

end ByteKV.CommandLine
