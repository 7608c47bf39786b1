import ByteKV.ConfigFile

/-! The lines of a configuration file, and the pieces in which the loader reads them: fgets
takes 1023 bytes of a line at most, and the next call takes what follows for a line of its
own. -/
namespace ByteKV.ConfigLines
open Config CommandLine ConfigFile Words

def textLines : Bytes → List Bytes
  | [] => []
  | b :: text =>
      if b = 10 then [b] :: textLines text
      else match textLines text with
        | [] => [[b]]
        | line :: lines => (b :: line) :: lines

def IsLine (raw : Bytes) : Prop := raw ≠ [] ∧ 10 ∉ raw.dropLast

theorem newline_free {w : Bytes} (none : ∀ b ∈ w, decide (b = 10) = false) : 10 ∉ w :=
  fun h => by simpa using none 10 h

theorem textLines_newline {w : Bytes} (free : 10 ∉ w) (text : Bytes) :
    textLines (w ++ 10 :: text) = (w ++ [10]) :: textLines text := by
  induction w with
  | nil => simp [textLines]
  | cons b w ih =>
    obtain ⟨hb, free⟩ := not_or.mp (List.mem_cons.not.mp free)
    rw [List.cons_append, textLines, if_neg (Ne.symm hb), ih free]
    rfl

theorem textLines_last {w : Bytes} (ne : w ≠ []) (free : 10 ∉ w) : textLines w = [w] := by
  induction w with
  | nil => exact absurd rfl ne
  | cons b w ih =>
    obtain ⟨hb, free⟩ := not_or.mp (List.mem_cons.not.mp free)
    rw [textLines, if_neg (Ne.symm hb)]
    cases w with
    | nil => rfl
    | cons c w => rw [ih (List.cons_ne_nil c w) free]

theorem textLines_isLine (text : Bytes) : ∀ raw ∈ textLines text, IsLine raw := by
  induction text using line_induction (fun b : UInt8 => b = 10) with
  | whole w none =>
    have free := newline_free none
    by_cases empty : w = []
    · simp [empty, textLines]
    · rw [textLines_last empty free]
      simp only [List.mem_singleton, forall_eq]
      exact ⟨empty, fun h => free (List.dropLast_subset w h)⟩
  | cut w d t hd none ih =>
    obtain rfl : d = 10 := by simpa using hd
    have free := newline_free none
    rw [textLines_newline free]
    intro raw h
    rcases List.mem_cons.mp h with rfl | h
    · exact ⟨by simp, by rwa [List.dropLast_concat]⟩
    · exact ih raw h

/-! What the calls of fgets return. -/

def reads : (rounds : Nat) → Bytes → List Bytes
  | 0, _ => []
  | rounds + 1, file =>
      match fgets file with
      | none => []
      | some (line, rest) => line :: reads rounds rest

def fileReads (file : Bytes) : List Bytes := reads (file.length + 1) file

theorem configLoop_eq (rounds : Nat) (file : Bytes) (acc : ServerConfig × Nat) :
    configLoop rounds file acc =
      (reads rounds file).foldl (fun acc line => configLine line acc) acc := by
  induction rounds generalizing file acc with
  | zero => rfl
  | succ rounds ih =>
    rw [configLoop, reads]
    cases fgets file with
    | none => rfl
    | some read => exact ih read.2 _

theorem fgets_shorter {file line rest : Bytes} (read : fgets file = some (line, rest)) :
    rest.length < file.length := by
  unfold fgets at read
  split at read
  · cases read
  · rename_i ne
    obtain ⟨-, rfl⟩ := Prod.mk.inj (Option.some.inj read)
    have pos := List.length_pos_iff.mpr ne
    rw [List.length_drop, lineSize]
    omega

theorem reads_enough {rounds : Nat} {file : Bytes} (enough : file.length < rounds) :
    reads rounds file = fileReads file := by
  rw [fileReads]
  generalize hother : file.length + 1 = other
  have enough' : file.length < other := by omega
  clear hother
  induction rounds generalizing file other with
  | zero => omega
  | succ rounds ih =>
    obtain ⟨other, rfl⟩ := Nat.exists_eq_succ_of_ne_zero (Nat.ne_of_gt (Nat.zero_lt_of_lt enough'))
    rw [reads, reads]
    cases read : fgets file with
    | none => rfl
    | some r =>
      have shorter := fgets_shorter read
      exact congrArg (r.1 :: ·) (ih (by omega) other (by omega))

@[simp] theorem fileReads_nil : fileReads [] = [] := rfl

theorem fileReads_cons {file line rest : Bytes} (read : fgets file = some (line, rest)) :
    fileReads file = line :: fileReads rest := by
  have shorter := fgets_shorter read
  rw [fileReads, reads, read]
  exact congrArg (line :: ·) (reads_enough (by omega))

theorem takeWhile_newline {w : Bytes} (free : 10 ∉ w) (text : Bytes) :
    (w ++ 10 :: text).takeWhile (· ≠ 10) = w := by
  rw [List.takeWhile_append_of_pos fun b hb => by
    simpa using fun h : b = 10 => free (h ▸ hb)]
  simp

theorem fileReads_newline {w : Bytes} (free : 10 ∉ w) (text : Bytes) :
    fileReads (w ++ 10 :: text) = fileReads (w ++ [10]) ++ fileReads text := by
  induction len : w.length using Nat.strongRecOn generalizing w with
  | ind n ih =>
    have taken (text : Bytes) : fgets (w ++ 10 :: text) =
        some ((w ++ 10 :: text).take (min (w.length + 1) (lineSize - 1)),
          (w ++ 10 :: text).drop (min (w.length + 1) (lineSize - 1))) := by
      rw [fgets, if_neg (by simp), takeWhile_newline free]
    by_cases fits : w.length + 1 ≤ lineSize - 1
    · have split (text : Bytes) : fgets (w ++ 10 :: text) = some (w ++ [10], text) := by
        have front : w ++ 10 :: text = (w ++ [10]) ++ text := by simp
        have size : (w ++ [10]).length = w.length + 1 := by simp
        rw [taken, Nat.min_eq_left fits, front, ← size, List.take_left, List.drop_left]
      rw [fileReads_cons (split text), fileReads_cons (split []), fileReads_nil]
      rfl
    · have split (text : Bytes) : fgets (w ++ 10 :: text) =
          some (w.take (lineSize - 1), w.drop (lineSize - 1) ++ 10 :: text) := by
        rw [taken, Nat.min_eq_right (by omega), List.take_append_of_le_length (by omega),
          List.drop_append_of_le_length (by omega)]
      have shorter : (w.drop (lineSize - 1)).length < n := by
        rw [List.length_drop, ← len, lineSize] at *
        omega
      rw [fileReads_cons (split text), fileReads_cons (split []),
        ih _ shorter (fun h => free (List.mem_of_mem_drop h)) rfl]
      rfl

theorem fileReads_lines (file : Bytes) : fileReads file = (textLines file).flatMap fileReads := by
  induction file using line_induction (fun b : UInt8 => b = 10) with
  | whole w none =>
    have free := newline_free none
    by_cases empty : w = []
    · simp [empty, textLines]
    · rw [textLines_last empty free, List.flatMap_singleton]
  | cut w d t hd none ih =>
    obtain rfl : d = 10 := by simpa using hd
    have free := newline_free none
    rw [textLines_newline free, List.flatMap_cons, ← ih, fileReads_newline free]

theorem fgets_line {raw : Bytes} (line : IsLine raw) :
    fgets raw = some (raw.take (lineSize - 1), raw.drop (lineSize - 1)) := by
  obtain ⟨ne, free⟩ := line
  have size := List.length_pos_iff.mpr ne
  have split := List.dropLast_append_getLast ne
  have front : raw.dropLast.length = raw.length - 1 := List.length_dropLast
  rw [fgets, if_neg ne]
  have count : raw.length ≤ (raw.takeWhile (· ≠ 10)).length + 1 := by
    have whole : (raw.dropLast ++ [raw.getLast ne]).takeWhile (· ≠ 10) =
        raw.dropLast ++ [raw.getLast ne].takeWhile (· ≠ 10) :=
      List.takeWhile_append_of_pos fun b hb => by simpa using fun h : b = 10 => free (h ▸ hb)
    rw [split] at whole
    rw [whole, List.length_append]
    omega
  by_cases fits : raw.length ≤ lineSize - 1
  · have whole : raw.length ≤ min ((raw.takeWhile (· ≠ 10)).length + 1) (lineSize - 1) := by omega
    simp only [List.take_of_length_le whole, List.drop_of_length_le whole,
      List.take_of_length_le fits, List.drop_of_length_le fits]
  · have cut : min ((raw.takeWhile (· ≠ 10)).length + 1) (lineSize - 1) = lineSize - 1 :=
      Nat.min_eq_right (by omega)
    simp only [cut]

theorem IsLine.drop {raw : Bytes} (line : IsLine raw) {n : Nat} (more : raw.drop n ≠ []) :
    IsLine (raw.drop n) := by
  refine ⟨more, fun h => line.2 ?_⟩
  rw [← List.take_append_drop n raw, List.dropLast_append_of_ne_nil more]
  exact List.mem_append_right _ h

theorem IsLine.take {raw : Bytes} (line : IsLine raw) {n : Nat} (pos : 0 < n) :
    IsLine (raw.take n) := by
  refine ⟨by simp [line.1]; omega, fun h => line.2 ?_⟩
  rw [List.dropLast_eq_take, List.take_take] at h
  rw [List.dropLast_eq_take]
  refine (List.take_subset_take_left raw ?_) h
  rw [List.length_take]
  omega

theorem fileReads_line {raw : Bytes} (line : IsLine raw) :
    fileReads raw = raw.take (lineSize - 1) :: fileReads (raw.drop (lineSize - 1)) :=
  fileReads_cons (fgets_line line)

/-- The calls that read a line return what begins at every 1023rd byte of it. -/
theorem fileReads_heads {raw : Bytes} (line : raw ≠ [] → IsLine raw) (P : UInt8 → Prop) :
    (∀ r ∈ fileReads raw, IsLine r ∧ ∃ b ∈ r.head?, P b) ↔
      ∀ i b, raw[(lineSize - 1) * i]? = some b → P b := by
  induction len : raw.length using Nat.strongRecOn generalizing raw with
  | ind n ih =>
    by_cases empty : raw = []
    · simp [empty]
    · have shorter : (raw.drop (lineSize - 1)).length < n := by
        have pos := List.length_pos_iff.mpr empty
        rw [List.length_drop, lineSize]
        omega
      have start : (raw.take (lineSize - 1)).head? = raw[0]? := by
        rw [List.head?_take, if_neg (by decide), List.head?_eq_getElem?]
      have first := (line empty).take (show 0 < lineSize - 1 by decide)
      have later := ih _ shorter (fun more => (line empty).drop more) rfl
      rw [fileReads_line (line empty), List.forall_mem_cons, later, start]
      constructor
      · rintro ⟨⟨-, b, hb, holds⟩, others⟩ i c hc
        cases i with
        | zero =>
          obtain rfl := Option.some.inj (hb.symm.trans hc)
          exact holds
        | succ i =>
          refine others i c ?_
          rw [List.getElem?_drop]
          rw [Nat.mul_succ, Nat.add_comm] at hc
          exact hc
      · intro all
        obtain ⟨b, hb⟩ : ∃ b, raw[0]? = some b :=
          ⟨_, List.getElem?_eq_getElem (List.length_pos_iff.mpr empty)⟩
        refine ⟨⟨first, b, hb, all 0 b hb⟩, fun i c hc => all (i + 1) c ?_⟩
        rw [List.getElem?_drop] at hc
        rw [Nat.mul_succ, Nat.add_comm]
        exact hc

/-! What the loader makes of one of them. -/

def Skipped (read : Bytes) : Prop :=
  stripNewline read = [] ∨ (stripNewline read).head? = some 35

instance (read : Bytes) : Decidable (Skipped read) := inferInstanceAs (Decidable (_ ∨ _))

def readSetting (read : Bytes) : Option (ConfigEntry × Bytes) :=
  if Skipped read then none
  else (scanPair (stripNewline read)).bind fun pair => (findConfig pair.1).map (·, pair.2)

def Stops (b : UInt8) : Prop := b = 10 ∨ b = 0 ∨ b = 35

theorem stripNewline_head (read : Bytes) {b : UInt8} (nul : b ≠ 0) (newline : b ≠ 10) :
    (stripNewline (b :: read)).head? = some b := by
  have front : cstr (b :: read) = b :: cstr read := by
    rw [cstr, List.takeWhile_cons_of_pos (by simpa using nul)]
    rfl
  simp only [stripNewline, front]
  cases cstr read with
  | nil => simp [newline]
  | cons c rest =>
    split
    · rfl
    · rfl

theorem skipped_iff {read : Bytes} (line : IsLine read) :
    Skipped read ↔ ∃ b ∈ read.head?, Stops b := by
  obtain ⟨ne, free⟩ := line
  obtain ⟨b, rest, rfl⟩ := List.exists_cons_of_ne_nil ne
  simp only [List.head?_cons, Option.mem_some_iff, exists_eq_left', Stops]
  by_cases newline : b = 10
  · subst newline
    have last : rest = [] := by
      cases rest with
      | nil => rfl
      | cons c rest => simp at free
    subst last
    exact iff_of_true (Or.inl (by decide)) (Or.inl rfl)
  · by_cases nul : b = 0
    · subst nul
      exact iff_of_true (Or.inl (by simp [stripNewline, cstr])) (Or.inr (Or.inl rfl))
    · have head := stripNewline_head rest nul newline
      have some : stripNewline (b :: rest) ≠ [] := fun h => by simp [h] at head
      simp only [Skipped, some, head, Option.some.injEq, false_or, newline, nul]

theorem fileReads_isLine {raw : Bytes} (line : raw ≠ [] → IsLine raw) :
    ∀ r ∈ fileReads raw, IsLine r := fun r h =>
  ((fileReads_heads line fun _ => True).mpr (fun _ _ _ => trivial) r h).1

/-! The tokens. -/

theorem scanToken_blank {s : Bytes} (none : words isSpace s = []) : scanToken s = ([], []) := by
  have blank : s.dropWhile isSpace = [] :=
    List.dropWhile_eq_nil_iff.mpr fun b hb => words_eq_nil.mp none b hb
  simp [scanToken, blank]

theorem scanToken_word {front w rest : Bytes} (blank : ∀ b ∈ front, isSpace b = true) (ne : w ≠ [])
    (none : ∀ b ∈ w, isSpace b = false) (stop : ∀ b ∈ rest.head?, isSpace b = true) :
    scanToken (front ++ (w ++ rest)) = (w.take tokenMax, w.drop tokenMax ++ rest) := by
  have start : (front ++ (w ++ rest)).dropWhile isSpace = w ++ rest := by
    obtain ⟨b, w', rfl⟩ := List.exists_cons_of_ne_nil ne
    rw [List.dropWhile_append_of_pos blank, List.cons_append, List.dropWhile_cons_of_neg]
    simp [none b List.mem_cons_self]
  have word : (w ++ rest).takeWhile (!isSpace ·) = w := by
    have behind : rest.takeWhile (!isSpace ·) = [] := by
      cases rest with
      | nil => rfl
      | cons b rest => rw [List.takeWhile_cons_of_neg (by simp [stop b rfl])]
    rw [List.takeWhile_append_of_pos fun b hb => by simp [none b hb], behind, List.append_nil]
  simp only [scanToken, start, word]
  by_cases short : w.length ≤ tokenMax
  · rw [Nat.min_eq_left short, List.take_left, List.drop_left, List.take_of_length_le short,
      List.drop_of_length_le short, List.nil_append]
  · have long : tokenMax ≤ w.length := by omega
    rw [Nat.min_eq_right long, List.take_append_of_le_length long,
      List.drop_append_of_le_length long]

/-- Where the first token is shorter than its buffer it is the whole first word, and the second
is the second word, or the first 255 bytes of it. -/
theorem scanPair_words {s key value : Bytes} (pair : scanPair s = some (key, value))
    (short : key.length < tokenMax) :
    ∃ w ws, words isSpace s = key :: w :: ws ∧ value = w.take tokenMax := by
  cases first : words isSpace s with
  | nil => simp [scanPair, scanToken_blank first] at pair
  | cons w ws =>
    obtain ⟨front, rest, rfl, blank, ne, none, stop, later⟩ := words_cons first
    simp only [scanPair, scanToken_word blank ne none stop] at pair
    split at pair
    · cases pair
    · rename_i some
      obtain ⟨rfl, rfl⟩ := Prod.mk.inj (Option.some.inj pair)
      rw [List.length_take] at short
      have whole : w.length ≤ tokenMax := by omega
      rw [List.take_of_length_le whole, List.drop_of_length_le whole, List.nil_append] at some ⊢
      cases second : words isSpace rest with
      | nil => simp [scanToken_blank second] at some
      | cons w' ws' =>
        obtain ⟨front', rest', rfl, blank', ne', none', stop', -⟩ := words_cons second
        exact ⟨w', ws', by rw [later, second], by rw [scanToken_word blank' ne' none' stop']⟩

theorem words_stripNewline (read : Bytes) :
    words isSpace (stripNewline read) = words isSpace (cstr read) := by
  simp only [stripNewline]
  split
  · rename_i last
    have split := List.dropLast_append_getLast? 10 last
    conv_rhs => rw [← split, words_append_delim (by decide), words_nil, List.append_nil]
  · rfl

theorem findConfig_name {name : Bytes} {entry : ConfigEntry}
    (found : findConfig name = some entry) : entry.name = name := by
  simpa using List.find?_some found

theorem configTable_names :
    ∀ entry ∈ configTable, entry.name.length < tokenMax ∧ 0 ∉ entry.name := by
  decide +kernel

theorem readSetting_words {read : Bytes} {entry : ConfigEntry} {value : Bytes}
    (takes : readSetting read = some (entry, value)) :
    ¬ Skipped read ∧ findConfig entry.name = some entry ∧
      ∃ w ws, words isSpace (cstr read) = entry.name :: w :: ws ∧ value = w.take tokenMax := by
  unfold readSetting at takes
  split at takes
  · cases takes
  · rename_i goesOn
    obtain ⟨⟨key, value'⟩, pair, known⟩ := Option.bind_eq_some_iff.mp takes
    obtain ⟨entry', found, eq⟩ := Option.map_eq_some_iff.mp known
    obtain ⟨rfl, rfl⟩ := Prod.mk.inj eq
    obtain rfl := findConfig_name found
    have short := (configTable_names _ (findConfig_mem found)).1
    obtain ⟨w, ws, tokens, cut⟩ := scanPair_words pair short
    rw [words_stripNewline] at tokens
    exact ⟨goesOn, found, w, ws, tokens, cut⟩

/-! What a line says, and what is taken from it. -/

/-- The setting of a line: its complete first two tokens, if the first is a name of the table
and the line is no comment. -/
def said (raw : Bytes) : List (ConfigEntry × Bytes) :=
  if raw.head? = some 35 then []
  else match words isSpace raw with
    | name :: value :: _ => ((findConfig name).map (·, value)).toList
    | _ => []

def taken (raw : Bytes) : List (ConfigEntry × Bytes) := (fileReads raw).filterMap readSetting

/-- Every 1023rd byte of the line is one at which the loader stops. If the line is a setting,
then its value is no longer than the token buffer, and it lies in the first 1023 bytes, in front
of any NUL. -/
structure ReadWhole (raw : Bytes) : Prop where
  behind : ∀ i b, raw[(lineSize - 1) * (i + 1)]? = some b → Stops b
  value : ∀ name value more, raw.head? ≠ some 35 → words isSpace raw = name :: value :: more →
    (findConfig name).isSome → value.length ≤ tokenMax ∧
      (words isSpace (cstr (raw.take (lineSize - 1))))[1]? = some value

section Line
variable {raw : Bytes} (line : IsLine raw)
  (accepted : ∀ r ∈ fileReads raw, Skipped r ∨ (readSetting r).isSome)
include line accepted

theorem behind_iff : (fileReads (raw.drop (lineSize - 1))).filterMap readSetting = [] ↔
    ∀ i b, raw[(lineSize - 1) * (i + 1)]? = some b → Stops b := by
  have drops : raw.drop (lineSize - 1) ≠ [] → IsLine (raw.drop (lineSize - 1)) := line.drop
  rw [fileReads_line line, List.forall_mem_cons] at accepted
  have heads := fileReads_heads drops Stops
  simp only [List.getElem?_drop, ← Nat.mul_succ, Nat.add_comm (lineSize - 1),
    Nat.succ_eq_add_one] at heads
  rw [← heads, List.filterMap_eq_nil_iff]
  refine forall₂_congr fun r hr => ?_
  have isLine := fileReads_isLine drops r hr
  rw [← skipped_iff isLine]
  constructor
  · intro none
    have skipped : Skipped r := by simpa [none] using accepted.2 r hr
    exact ⟨isLine, skipped⟩
  · rintro ⟨-, skipped⟩
    rw [readSetting, if_pos skipped]

omit accepted in
theorem firstRead_isLine : IsLine (raw.take (lineSize - 1)) := line.take (by decide)

omit line accepted in
theorem firstRead_head (raw : Bytes) : (raw.take (lineSize - 1)).head? = raw.head? := by
  rw [List.head?_take, if_neg (by decide)]

omit accepted in
theorem said_of_skipped (skipped : Skipped (raw.take (lineSize - 1))) : said raw = [] ∧
    ∀ name value more, raw.head? ≠ some 35 → words isSpace raw = name :: value :: more →
      findConfig name = none := by
  obtain ⟨b, hb, stops⟩ := (skipped_iff (firstRead_isLine line)).mp skipped
  rw [firstRead_head] at hb
  have unknown (name value : Bytes) (more : List Bytes) (goesOn : raw.head? ≠ some 35)
      (tokens : words isSpace raw = name :: value :: more) : findConfig name = none := by
    obtain ⟨front, rest, split, blank, ne, -, -, later⟩ := words_cons tokens
    rcases stops with rfl | rfl | rfl
    · -- A newline at the front is all there is of the line.
      obtain ⟨tail, rfl⟩ := List.head?_eq_some_iff.mp hb
      have alone : tail = [] := by
        cases tail with
        | nil => rfl
        | cons c tail => simp [IsLine] at line
      have blank : words isSpace [10] = [] := words_eq_nil.mpr (by simp [isSpace])
      rw [alone, blank] at tokens
      cases tokens
    · -- A NUL at the front belongs to the first token.
      cases found : findConfig name with
      | none => rfl
      | some entry =>
        have nulFree := (configTable_names entry (findConfig_mem found)).2
        rw [findConfig_name found] at nulFree
        cases front with
        | cons c front =>
          rw [split] at hb
          obtain rfl := Option.some.inj hb
          exact absurd (blank 0 List.mem_cons_self) (by decide)
        | nil =>
          obtain ⟨c, name', rfl⟩ := List.exists_cons_of_ne_nil ne
          rw [split] at hb
          obtain rfl := Option.some.inj hb
          exact absurd List.mem_cons_self nulFree
    · exact absurd hb goesOn
  refine ⟨?_, unknown⟩
  unfold said
  split
  · rfl
  · rename_i goesOn
    split
    · rename_i name value more tokens
      rw [unknown name value more goesOn tokens]
      rfl
    · rfl

/-- The loader takes from a line what the line says, and nothing else, exactly when it reads
it whole. -/
theorem taken_eq_said_iff : taken raw = said raw ↔ ReadWhole raw := by
  have behind := behind_iff line accepted
  rw [fileReads_line line, List.forall_mem_cons] at accepted
  have split : taken raw = (readSetting (raw.take (lineSize - 1))).toList ++
      (fileReads (raw.drop (lineSize - 1))).filterMap readSetting := by
    rw [taken, fileReads_line line, List.filterMap_cons]
    cases readSetting (raw.take (lineSize - 1)) <;> rfl
  by_cases skipped : Skipped (raw.take (lineSize - 1))
  · obtain ⟨none, unknown⟩ := said_of_skipped line skipped
    have first : readSetting (raw.take (lineSize - 1)) = Option.none := by
      rw [readSetting, if_pos skipped]
    rw [split, none, first, Option.toList_none, List.nil_append, behind]
    refine ⟨fun stops => ⟨stops, fun name value more goesOn tokens known => ?_⟩, fun whole =>
      whole.behind⟩
    rw [unknown name value more goesOn tokens] at known
    cases known
  · obtain ⟨⟨entry, value⟩, first⟩ := Option.isSome_iff_exists.mp (accepted.1.resolve_left skipped)
    obtain ⟨-, found, w, ws, tokens, cut⟩ := readSetting_words first
    -- The second token of the first read begins the second token of the line.
    have pre : cstr (raw.take (lineSize - 1)) <+: raw :=
      (List.takeWhile_prefix _).trans (List.take_prefix _ _)
    obtain ⟨v, vs, all, goesOn⟩ := words_prefix pre tokens
    have noComment : raw.head? ≠ some 35 := fun hash => by
      refine skipped ((skipped_iff (firstRead_isLine line)).mpr ⟨35, ?_, Or.inr (Or.inr rfl)⟩)
      rw [firstRead_head, hash]
      rfl
    have own : said raw = [(entry, v)] := by
      rw [said, if_neg noComment, all]
      simp only [found]
      rfl
    rw [split, first, own, Option.toList_some, List.singleton_append, List.cons.injEq,
      Prod.mk.injEq, behind]
    constructor
    · rintro ⟨⟨-, same⟩, stops⟩
      refine ⟨stops, fun name value' more _ tokens' _ => ?_⟩
      rw [all, List.cons.injEq, List.cons.injEq] at tokens'
      obtain ⟨rfl, rfl, rfl⟩ := tokens'
      rw [cut] at same
      have short : v.length ≤ tokenMax := same ▸ List.length_take_le _ _
      have whole : w = v := by
        refine goesOn.eq_of_length (le_antisymm goesOn.length_le ?_)
        rw [← same]
        exact List.length_take_le' _ _
      exact ⟨short, by rw [tokens, whole]; rfl⟩
    · intro whole
      obtain ⟨short, same⟩ := whole.value entry.name v vs noComment all (by rw [found]; rfl)
      rw [tokens] at same
      obtain rfl := Option.some.inj same
      exact ⟨⟨rfl, by rw [cut, List.take_of_length_le short]⟩, whole.behind⟩

end Line

end ByteKV.ConfigLines
