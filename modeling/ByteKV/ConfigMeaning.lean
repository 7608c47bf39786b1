import ByteKV.ConfigLines

/-! What an accepted configuration file means: every field has the value that the last line
with its name denotes. The loader keeps to this exactly where it reads every line whole. -/
namespace ByteKV.ConfigMeaning
open Config CommandLine ConfigFile ConfigLines Words

/-! Fields and their values. -/

inductive Field
  | int (field : IntField)
  | bool (field : BoolField)
  | string (field : StringField)
  | enum (field : EnumField)
  deriving DecidableEq, Repr

inductive FieldValue
  | int (n : Int)
  | bool (b : Bool)
  | string (s : Bytes)
  | enum (i : Nat)
  deriving DecidableEq, Repr

def fieldOf (entry : ConfigEntry) : Field :=
  match entry.type with
  | .int field _ _ => .int field
  | .bool field => .bool field
  | .string field => .string field
  | .enum field _ => .enum field

def Field.value (config : ServerConfig) : Field → FieldValue
  | int field => .int (field.get config)
  | bool field => .bool (field.get config)
  | string field => .string (field.get config)
  | enum field => .enum (field.get config)

theorem value_putInt {config : ServerConfig} {n : Int} {f : IntField} {g : Field}
    (other : g ≠ .int f) : g.value (f.put config n) = g.value config := by
  cases g with
  | int g =>
    have ne : g ≠ f := fun h => other (congrArg Field.int h)
    simp [Field.value, ne]
  | bool g => cases f <;> cases g <;> rfl
  | string g => cases f <;> cases g <;> rfl
  | enum g => cases f <;> cases g <;> rfl

theorem value_putBool {config : ServerConfig} {b : Bool} {f : BoolField} {g : Field}
    (other : g ≠ .bool f) : g.value (f.put config b) = g.value config := by
  cases g with
  | int g => simp [Field.value]
  | bool g => cases f <;> cases g <;> first | rfl | exact absurd rfl other
  | string g => cases f <;> cases g <;> rfl
  | enum g => cases f <;> cases g <;> rfl

theorem value_putString {config : ServerConfig} {s : Bytes} {f : StringField} {g : Field}
    (other : g ≠ .string f) : g.value (f.put config s) = g.value config := by
  cases f
  cases g with
  | int g => simp [Field.value]
  | bool g => cases g <;> rfl
  | string g =>
    cases g
    exact absurd rfl other
  | enum g => cases g <;> rfl

theorem value_putEnum {config : ServerConfig} {i : Nat} {f : EnumField} {g : Field}
    (other : g ≠ .enum f) : g.value (f.put config i) = g.value config := by
  cases g with
  | int g => simp [Field.value]
  | bool g => cases f <;> cases g <;> rfl
  | string g => cases f <;> cases g <;> rfl
  | enum g => cases f <;> cases g <;> first | rfl | exact absurd rfl other

/-! What a token denotes. -/

def DecimalText (s : Bytes) (n : Int) : Prop :=
  ∃ sign digits, s = sign ++ digits ∧ digits ≠ [] ∧ (∀ b ∈ digits, isDigit b = true) ∧
    ((sign = [45] ∧ n = -digitsValue digits) ∨ ((sign = [] ∨ sign = [43]) ∧ n = digitsValue digits))

def Denotes (entry : ConfigEntry) (token : Bytes) (value : FieldValue) : Prop :=
  match entry.type with
  | .int _ _ _ => ∃ n, DecimalText token n ∧ value = .int n
  | .bool _ =>
      (token = ascii "yes" ∧ value = .bool true) ∨ (token = ascii "no" ∧ value = .bool false)
  | .string _ => value = .string token
  | .enum _ enumValues => ∃ i, enumValues[i]? = some token ∧ value = .enum i

def Sound (entry : ConfigEntry) : Prop :=
  match entry.type with
  | .int _ min max => -2 ^ 63 < min ∧ max < 2 ^ 63 - 1
  | .enum _ enumValues => enumValues.length = 3
  | _ => True

instance (entry : ConfigEntry) : Decidable (Sound entry) := by
  unfold Sound
  split <;> infer_instance

theorem configTable_sound : ∀ entry ∈ configTable, Sound entry := by decide +kernel

theorem strtoll_decimal {s : Bytes} {n : Int} (ne : s ≠ []) (word : ∀ b ∈ s, isSpace b = false)
    (whole : strtoll s = (n, [])) (low : -2 ^ 63 < n) (high : n < 2 ^ 63 - 1) : DecimalText s n := by
  have start : s.dropWhile isSpace = s := by
    obtain ⟨b, t, rfl⟩ := List.exists_cons_of_ne_nil ne
    rw [List.dropWhile_cons_of_neg (by simp [word b List.mem_cons_self])]
  simp only [strtoll, start] at whole
  obtain ⟨unsigned, ht⟩ :
      ∃ t, (if s.head? = some 45 ∨ s.head? = some 43 then s.tail else s) = t := ⟨_, rfl⟩
  rw [ht] at whole
  split at whole
  · exact absurd (Prod.mk.inj whole).2 ne
  · rename_i some
    obtain ⟨value, stop⟩ := Prod.mk.inj whole
    have digits : unsigned.takeWhile isDigit = unsigned := by
      have all := List.takeWhile_append_dropWhile (p := isDigit) (l := unsigned)
      rwa [stop, List.append_nil] at all
    rw [digits] at value some
    have every : ∀ b ∈ unsigned, isDigit b = true := fun b hb =>
      List.dropWhile_eq_nil_iff.mp stop b hb
    by_cases minus : s.head? = Option.some 45
    · obtain ⟨t, rfl⟩ := List.head?_eq_some_iff.mp minus
      simp only [List.head?_cons, true_or, if_true, List.tail_cons] at ht value
      subst ht
      exact ⟨[45], t, rfl, some, every, Or.inl ⟨rfl, by omega⟩⟩
    · rw [if_neg minus] at value
      by_cases plus : s.head? = Option.some 43
      · obtain ⟨t, rfl⟩ := List.head?_eq_some_iff.mp plus
        simp only [List.head?_cons, or_true, if_true, List.tail_cons] at ht
        subst ht
        exact ⟨[43], t, rfl, some, every, Or.inr ⟨Or.inr rfl, by omega⟩⟩
      · rw [if_neg (not_or.mpr ⟨minus, plus⟩)] at ht
        subst ht
        exact ⟨[], s, rfl, some, every, Or.inr ⟨Or.inl rfl, by omega⟩⟩

theorem enumGet_put (config : ServerConfig) (f : EnumField) {i : Nat} (small : i < 3) :
    f.get (f.put config i) = i := by
  have three : i = 0 ∨ i = 1 ∨ i = 2 := by omega
  rcases three with rfl | rfl | rfl <;> cases f <;> rfl

theorem applyConfig_denotes {entry : ConfigEntry} (mem : entry ∈ configTable) {token : Bytes}
    (ne : token ≠ []) (word : ∀ b ∈ token, isSpace b = false) {config config' : ServerConfig}
    (done : applyConfig entry token config = some config') :
    Denotes entry token ((fieldOf entry).value config') ∧
      ∀ field ≠ fieldOf entry, field.value config' = field.value config := by
  have sound := configTable_sound entry mem
  unfold applyConfig at done
  split at done
  case _ field min max type =>
    rcases value : strtoll token with ⟨val, stop⟩
    rw [value] at done
    dsimp only at done
    split at done
    · cases done
    · rename_i whole
      split at done
      · cases done
      · rename_i bounds
        cases done
        push Not at bounds whole
        simp only [Sound, type] at sound
        rw [whole] at value
        simp only [Denotes, fieldOf, type]
        refine ⟨⟨val, strtoll_decimal ne word value (by omega) (by omega), ?_⟩,
          fun other ne => value_putInt ne⟩
        simp only [Field.value, IntField.get_put, if_true]
  case _ field type =>
    simp only [Denotes, fieldOf, type]
    split at done
    · rename_i yes
      cases done
      exact ⟨Or.inl ⟨yes, by cases field <;> rfl⟩, fun other ne => value_putBool ne⟩
    · split at done
      · rename_i no
        cases done
        exact ⟨Or.inr ⟨no, by cases field <;> rfl⟩, fun other ne => value_putBool ne⟩
      · cases done
  case _ field type =>
    cases done
    simp only [Denotes, fieldOf, type]
    exact ⟨by cases field; rfl, fun other ne => value_putString ne⟩
  case _ field enumValues type =>
    split at done
    · rename_i i found
      cases done
      obtain ⟨inside, matched, -⟩ := List.findIdx?_eq_some_iff_getElem.mp found
      simp only [Sound, type] at sound
      simp only [Denotes, fieldOf, type]
      refine ⟨⟨i, ?_, ?_⟩, fun other ne => value_putEnum ne⟩
      · rw [List.getElem?_eq_getElem inside]
        simpa using matched
      · rw [Field.value, enumGet_put config field (sound ▸ inside)]
    · cases done

/-! A load without errors. -/

inductive Applies : ServerConfig → List (ConfigEntry × Bytes) → ServerConfig → Prop
  | nil (config : ServerConfig) : Applies config [] config
  | cons {config config₁ config₂ : ServerConfig} {entry : ConfigEntry} {token : Bytes}
      {settings : List (ConfigEntry × Bytes)}
      (done : applyConfig entry token config = some config₁)
      (later : Applies config₁ settings config₂) :
      Applies config ((entry, token) :: settings) config₂

theorem configLine_cases (read : Bytes) (acc : ServerConfig × Nat) :
    (Skipped read ∧ configLine read acc = acc) ∨
      (∃ entry token config, readSetting read = some (entry, token) ∧
        applyConfig entry token acc.1 = some config ∧ configLine read acc = (config, acc.2)) ∨
      configLine read acc = (acc.1, acc.2 + 1) := by
  by_cases skipped : Skipped read
  · exact Or.inl ⟨skipped, if_pos skipped⟩
  · refine Or.inr ?_
    have goesOn : configLine read acc = _ := if_neg skipped
    rw [goesOn, readSetting, if_neg skipped]
    cases scanPair (stripNewline read) with
    | none => exact Or.inr rfl
    | some pair =>
      simp only [Option.bind_some]
      cases found : findConfig pair.1 with
      | none => exact Or.inr rfl
      | some entry =>
        simp only [Option.map_some, Option.some.injEq, Prod.mk.injEq]
        cases done : applyConfig entry pair.2 acc.1 with
        | none => exact Or.inr rfl
        | some config => exact Or.inl ⟨entry, pair.2, config, ⟨rfl, rfl⟩, done, rfl⟩

theorem foldl_accepted {reads : List Bytes} {acc : ServerConfig × Nat} {config : ServerConfig}
    (loaded : reads.foldl (fun acc line => configLine line acc) acc = (config, 0)) :
    acc.2 = 0 ∧ (∀ r ∈ reads, Skipped r ∨ (readSetting r).isSome) ∧
      Applies acc.1 (reads.filterMap readSetting) config := by
  induction reads generalizing acc with
  | nil =>
    rw [List.foldl_nil] at loaded
    subst loaded
    exact ⟨rfl, by simp, .nil config⟩
  | cons r reads ih =>
    rw [List.foldl_cons] at loaded
    obtain ⟨none, all, applies⟩ := ih loaded
    rcases configLine_cases r acc with ⟨skipped, same⟩ |
      ⟨entry, token, config₁, takes, done, step⟩ | error
    · rw [same] at none applies
      have nothing : readSetting r = Option.none := by rw [readSetting, if_pos skipped]
      rw [List.filterMap_cons_none nothing]
      exact ⟨none, List.forall_mem_cons.mpr ⟨Or.inl skipped, all⟩, applies⟩
    · rw [step] at none applies
      rw [List.filterMap_cons_some takes]
      exact ⟨none, List.forall_mem_cons.mpr ⟨Or.inr (by rw [takes]; rfl), all⟩, .cons done applies⟩
    · rw [error] at none
      exact absurd none (Nat.succ_ne_zero _)

theorem loadConfig_applies {file : Bytes} {config config' : ServerConfig}
    (loaded : loadConfig file config = some config') :
    (∀ r ∈ fileReads file, Skipped r ∨ (readSetting r).isSome) ∧
      Applies config ((fileReads file).filterMap readSetting) config' := by
  unfold loadConfig at loaded
  split at loaded
  · rename_i last done
    obtain rfl := Option.some.inj loaded
    rw [configLoop_eq] at done
    exact (foldl_accepted done).2
  · cases loaded

/-! The last setting of an entry is the one that counts. -/

/-- What the last of the tokens denotes, or the default if there are none. -/
def LastDenoted (entry : ConfigEntry) (tokens : List Bytes) (default value : FieldValue) : Prop :=
  match tokens.getLast? with
  | none => value = default
  | some token => Denotes entry token value

def tokensOf (entry : ConfigEntry) (settings : List (ConfigEntry × Bytes)) : List Bytes :=
  settings.filterMap fun setting => if setting.1 = entry then some setting.2 else none

theorem configTable_fieldOf : ∀ entry ∈ configTable, ∀ entry' ∈ configTable,
    fieldOf entry = fieldOf entry' → entry = entry' := by
  decide +kernel

theorem Applies.last {config config' : ServerConfig} {settings : List (ConfigEntry × Bytes)}
    (applies : Applies config settings config') (known : ∀ setting ∈ settings,
      setting.1 ∈ configTable ∧ setting.2 ≠ [] ∧ ∀ b ∈ setting.2, isSpace b = false)
    {entry : ConfigEntry} (mem : entry ∈ configTable) :
    LastDenoted entry (tokensOf entry settings) ((fieldOf entry).value config)
      ((fieldOf entry).value config') := by
  induction applies with
  | nil => exact rfl
  | @cons config config₁ config₂ entry' token settings done later ih =>
    obtain ⟨⟨mem', ne, word⟩, known⟩ := List.forall_mem_cons.mp known
    obtain ⟨denotes, others⟩ := applyConfig_denotes mem' ne word done
    have ih := ih known
    by_cases same : entry' = entry
    · subst same
      have tokens : tokensOf entry' ((entry', token) :: settings) =
          token :: tokensOf entry' settings := List.filterMap_cons_some (if_pos rfl)
      rw [tokens]
      cases behind : tokensOf entry' settings with
      | nil =>
        rw [behind] at ih
        have kept : (fieldOf entry').value config₂ = (fieldOf entry').value config₁ := ih
        rw [kept]
        exact denotes
      | cons token' tokens =>
        rw [behind] at ih
        rw [LastDenoted, List.getLast?_cons_cons]
        exact ih
    · have tokens : tokensOf entry ((entry', token) :: settings) = tokensOf entry settings :=
        List.filterMap_cons_none (if_neg same)
      have other : fieldOf entry ≠ fieldOf entry' := fun h =>
        same (configTable_fieldOf entry mem entry' mem' h).symm
      rw [tokens, ← others _ other]
      exact ih

/-! What a file means. -/

def saidToken (name raw : Bytes) : Option Bytes :=
  if raw.head? = some 35 then none
  else match words isSpace raw with
    | first :: second :: _ => if first = name then some second else none
    | _ => none

/-- Every field has the value that the last line with its name denotes, or its default; the
numbers are within their bounds; and of every line the loader takes what it says, whole, and
nothing else. -/
structure Means (file : Bytes) (config : ServerConfig) : Prop where
  fields : ∀ entry ∈ configTable, LastDenoted entry
    ((textLines file).filterMap (saidToken entry.name)) ((fieldOf entry).value {})
    ((fieldOf entry).value config)
  bounds : InBounds config
  lines : ∀ raw ∈ textLines file, taken raw = said raw

theorem Means.denotes {file : Bytes} {config : ServerConfig} (means : Means file config)
    {entry : ConfigEntry} (mem : entry ∈ configTable) {token : Bytes}
    (last : ((textLines file).filterMap (saidToken entry.name)).getLast? = some token) :
    Denotes entry token ((fieldOf entry).value config) := by
  have value := means.fields entry mem
  rwa [LastDenoted, last] at value

theorem Means.default {file : Bytes} {config : ServerConfig} (means : Means file config)
    {entry : ConfigEntry} (mem : entry ∈ configTable)
    (last : ((textLines file).filterMap (saidToken entry.name)).getLast? = none) :
    (fieldOf entry).value config = (fieldOf entry).value {} := by
  have value := means.fields entry mem
  rwa [LastDenoted, last] at value

theorem findConfig_self : ∀ entry ∈ configTable, findConfig entry.name = some entry := by
  decide +kernel

theorem tokensOf_said {entry : ConfigEntry} (mem : entry ∈ configTable) (raw : Bytes) :
    tokensOf entry (said raw) = (saidToken entry.name raw).toList := by
  unfold said saidToken
  split
  · rfl
  · rcases words isSpace raw with _ | ⟨first, _ | ⟨second, more⟩⟩
    · rfl
    · rfl
    · by_cases same : first = entry.name
      · simp only [same, if_true, findConfig_self entry mem]
        simp [tokensOf]
      · simp only [same, if_false]
        cases found : findConfig first with
        | none => rfl
        | some entry' =>
          have other : entry' ≠ entry := fun h => same (h ▸ (findConfig_name found).symm)
          simp [tokensOf, other]

theorem tokensOf_lines {entry : ConfigEntry} (mem : entry ∈ configTable) (lines : List Bytes) :
    tokensOf entry (lines.flatMap said) = lines.filterMap (saidToken entry.name) := by
  induction lines with
  | nil => rfl
  | cons raw lines ih =>
    have split : tokensOf entry (said raw ++ lines.flatMap said) =
        tokensOf entry (said raw) ++ tokensOf entry (lines.flatMap said) := List.filterMap_append
    rw [List.flatMap_cons, split, ih, tokensOf_said mem]
    cases token : saidToken entry.name raw with
    | none => rw [List.filterMap_cons_none token]; rfl
    | some value => rw [List.filterMap_cons_some token]; rfl

theorem fileReads_taken (file : Bytes) :
    (fileReads file).filterMap readSetting = (textLines file).flatMap taken := by
  rw [fileReads_lines, List.filterMap_flatMap]
  rfl

/-- An accepted file means what it says exactly when the loader reads each of its lines whole. -/
theorem means_iff {file : Bytes} {config : ServerConfig}
    (loaded : loadConfig file {} = some config) :
    Means file config ↔ ∀ raw ∈ textLines file, ReadWhole raw := by
  obtain ⟨accepted, applies⟩ := loadConfig_applies loaded
  have lines : ∀ raw ∈ textLines file, taken raw = said raw ↔ ReadWhole raw := fun raw h =>
    taken_eq_said_iff (textLines_isLine file raw h) fun r hr => accepted r (by
      rw [fileReads_lines]
      exact List.mem_flatMap.mpr ⟨raw, h, hr⟩)
  refine ⟨fun means raw h => (lines raw h).mp (means.lines raw h), fun whole => ?_⟩
  have same : ∀ raw ∈ textLines file, taken raw = said raw := fun raw h =>
    (lines raw h).mpr (whole raw h)
  refine ⟨fun entry mem => ?_, Accepted.inBounds ⟨some file, loaded⟩, same⟩
  have known : ∀ setting ∈ (fileReads file).filterMap readSetting,
      setting.1 ∈ configTable ∧ setting.2 ≠ [] ∧ ∀ b ∈ setting.2, isSpace b = false := by
    rintro ⟨entry, token⟩ h
    obtain ⟨r, -, takes⟩ := List.mem_filterMap.mp h
    obtain ⟨-, found, w, ws, tokens, rfl⟩ := readSetting_words takes
    have word := words_mem (tokens ▸ List.mem_cons_of_mem _ List.mem_cons_self : w ∈ _)
    refine ⟨findConfig_mem found, ?_, fun b hb => word.2.1 b (List.mem_of_mem_take hb)⟩
    simp [word.1, tokenMax]
  have last := applies.last known mem
  rw [fileReads_taken, List.flatMap_congr same, tokensOf_lines mem] at last
  exact last

theorem readWhole_of_short {raw : Bytes} (short : raw.length ≤ lineSize - 1) (nul : NulFree raw)
    (tokens : ∀ w ∈ words isSpace raw, w.length ≤ tokenMax) : ReadWhole raw := by
  refine ⟨fun i b hb => ?_, fun name value more _ all _ => ⟨tokens value ?_, ?_⟩⟩
  · have beyond : raw.length ≤ (lineSize - 1) * (i + 1) :=
      short.trans (Nat.le_mul_of_pos_right _ (Nat.succ_pos i))
    rw [List.getElem?_eq_none beyond] at hb
    cases hb
  · rw [all]
    exact List.mem_cons_of_mem _ List.mem_cons_self
  · rw [List.take_of_length_le short, cstr_of_nulFree nul, all]
    rfl

def ordinaryFile : Bytes := ascii "# network\nport 80\n\nappendfsync no\nport 8080"

theorem means_ordinary :
    Means ordinaryFile { port := 8080, aofPolicy := .no } := by
  have loaded : loadConfig ordinaryFile {} = some { port := 8080, aofPolicy := .no } := by
    decide +kernel
  refine (means_iff loaded).mpr fun raw h => ?_
  have all : ∀ raw ∈ textLines ordinaryFile, raw.length ≤ lineSize - 1 ∧ NulFree raw ∧
      ∀ w ∈ words isSpace raw, w.length ≤ tokenMax := by decide +kernel
  exact readWhole_of_short (all raw h).1 (all raw h).2.1 (all raw h).2.2

def longName : Bytes := ascii "aof-filename " ++ List.replicate 300 97

/-- A comment of 1023 bytes and, in the same line, what looks like a setting. -/
def longComment : Bytes := 35 :: List.replicate 1022 32 ++ ascii "port 1"

theorem longLines_misread :
    loadConfig longName {} = some { aofFilename := List.replicate 255 97 } ∧
      ¬ Means longName { aofFilename := List.replicate 255 97 } ∧
      loadConfig longComment {} = some { port := 1 } ∧ ¬ Means longComment { port := 1 } := by
  refine ⟨by decide +kernel, fun means => ?_, by decide +kernel, fun means => ?_⟩
  · have mem : ⟨ascii "aof-filename", .string .aofFilename⟩ ∈ configTable := by simp [configTable]
    have last : ((textLines longName).filterMap (saidToken (ascii "aof-filename"))).getLast? =
        some (List.replicate 300 97) := by decide +kernel
    have cut := means.denotes mem last
    simp only [Denotes, fieldOf, Field.value, StringField.get, FieldValue.string.injEq] at cut
    have len := congrArg List.length cut
    rw [List.length_replicate, List.length_replicate] at len
    exact absurd len (by decide)
  · have mem : ⟨ascii "port", .int .port 1 65535⟩ ∈ configTable := by simp [configTable]
    have set := means.default mem (by decide +kernel)
    simp only [fieldOf, Field.value, IntField.get, FieldValue.int.injEq] at set
    exact absurd set (by decide)

end ByteKV.ConfigMeaning
