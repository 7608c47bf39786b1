import ByteKV.CommandLine

/-! config.c: the table of settings, and the loader that reads a file line by line. Its
line buffer holds 1024 bytes and its two tokens 255 each. -/
namespace ByteKV.ConfigFile
open Config CommandLine

/-! The fields that a table entry can point to. -/

inductive IntField
  | port
  | tcpBacklog
  | hz
  | activeExpirePercent
  | activeExpireKeysPerRound
  | clientTimeoutS
  | clientTimeoutCheckHz
  | aofCheckHz
  | aofRewriteMinSize
  | aofRewriteGrowth
  | aofRewriteBufMaxSize
  | aofRewriteBackoffBaseMs
  | aofRewriteBackoffMaxMs
  deriving DecidableEq, Repr

inductive BoolField
  | activeExpireEnabled
  | aofEnabled
  deriving DecidableEq, Repr

inductive StringField
  | aofFilename
  deriving DecidableEq, Repr

inductive EnumField
  | aofPolicy
  | aofFsyncMode
  deriving DecidableEq, Repr

namespace IntField

def get (config : ServerConfig) : IntField → Int
  | port => config.port
  | tcpBacklog => config.tcpBacklog
  | hz => config.hz
  | activeExpirePercent => config.activeExpirePercent
  | activeExpireKeysPerRound => config.activeExpireKeysPerRound
  | clientTimeoutS => config.clientTimeoutS
  | clientTimeoutCheckHz => config.clientTimeoutCheckHz
  | aofCheckHz => config.aofCheckHz
  | aofRewriteMinSize => config.aofRewriteMinSize
  | aofRewriteGrowth => config.aofRewriteGrowth
  | aofRewriteBufMaxSize => config.aofRewriteBufMaxSize
  | aofRewriteBackoffBaseMs => config.aofRewriteBackoffBaseMs
  | aofRewriteBackoffMaxMs => config.aofRewriteBackoffMaxMs

def put (config : ServerConfig) (val : Int) : IntField → ServerConfig
  | port => { config with port := val }
  | tcpBacklog => { config with tcpBacklog := val }
  | hz => { config with hz := val }
  | activeExpirePercent => { config with activeExpirePercent := val }
  | activeExpireKeysPerRound => { config with activeExpireKeysPerRound := val }
  | clientTimeoutS => { config with clientTimeoutS := val }
  | clientTimeoutCheckHz => { config with clientTimeoutCheckHz := val }
  | aofCheckHz => { config with aofCheckHz := val }
  | aofRewriteMinSize => { config with aofRewriteMinSize := val }
  | aofRewriteGrowth => { config with aofRewriteGrowth := val }
  | aofRewriteBufMaxSize => { config with aofRewriteBufMaxSize := val }
  | aofRewriteBackoffBaseMs => { config with aofRewriteBackoffBaseMs := val }
  | aofRewriteBackoffMaxMs => { config with aofRewriteBackoffMaxMs := val }

@[simp] theorem get_put (config : ServerConfig) (val : Int) (f g : IntField) :
    f.get (g.put config val) = if f = g then val else f.get config := by
  cases g <;> cases f <;> rfl

end IntField

def BoolField.put (config : ServerConfig) (val : Bool) : BoolField → ServerConfig
  | activeExpireEnabled => { config with activeExpireEnabled := val }
  | aofEnabled => { config with aofEnabled := val }

def BoolField.get (config : ServerConfig) : BoolField → Bool
  | activeExpireEnabled => config.activeExpireEnabled
  | aofEnabled => config.aofEnabled

def StringField.get (config : ServerConfig) : StringField → Bytes
  | aofFilename => config.aofFilename

def StringField.put (config : ServerConfig) (val : Bytes) : StringField → ServerConfig
  | aofFilename => { config with aofFilename := val }

def aofPolicyValues : List Bytes := [ascii "no", ascii "pertick", ascii "always"]

def aofFsyncModeValues : List Bytes := [ascii "data", ascii "meta", ascii "full"]

def EnumField.put (config : ServerConfig) (i : Nat) : EnumField → ServerConfig
  | aofPolicy => { config with aofPolicy := [AofPolicy.no, .pertick, .always].getD i .always }
  | aofFsyncMode =>
      { config with aofFsyncMode := [AofFsyncMode.data, .metadata, .full].getD i .full }

def EnumField.get (config : ServerConfig) : EnumField → Nat
  | aofPolicy => match config.aofPolicy with
      | .no => 0
      | .pertick => 1
      | .always => 2
  | aofFsyncMode => match config.aofFsyncMode with
      | .data => 0
      | .metadata => 1
      | .full => 2

@[simp] theorem IntField.get_putBool (config : ServerConfig) (val : Bool) (f : IntField)
    (g : BoolField) : f.get (g.put config val) = f.get config := by
  cases g <;> cases f <;> rfl

@[simp] theorem IntField.get_putString (config : ServerConfig) (val : Bytes) (f : IntField)
    (g : StringField) : f.get (g.put config val) = f.get config := by
  cases g
  cases f <;> rfl

@[simp] theorem IntField.get_putEnum (config : ServerConfig) (i : Nat) (f : IntField)
    (g : EnumField) : f.get (g.put config i) = f.get config := by
  cases g <;> cases f <;> rfl

/-! The table. -/

/-- The type of an entry, with what only that type uses of it. -/
inductive ConfigType
  | int (field : IntField) (min max : Int)
  | bool (field : BoolField)
  | string (field : StringField)
  | enum (field : EnumField) (enumValues : List Bytes)
  deriving DecidableEq, Repr

structure ConfigEntry where
  name : Bytes
  type : ConfigType
  deriving DecidableEq, Repr

def configTable : List ConfigEntry :=
  [⟨ascii "port", .int .port 1 65535⟩,
    ⟨ascii "tcp-backlog", .int .tcpBacklog 1 65535⟩,
    ⟨ascii "hz", .int .hz 1 500⟩,
    ⟨ascii "active-expire-enabled", .bool .activeExpireEnabled⟩,
    ⟨ascii "active-expire-percent", .int .activeExpirePercent 1 100⟩,
    ⟨ascii "active-expire-keys-per-round", .int .activeExpireKeysPerRound 1 1000⟩,
    ⟨ascii "client-timeout", .int .clientTimeoutS 0 86400⟩,
    ⟨ascii "client-timeout-check-hz", .int .clientTimeoutCheckHz 1 100⟩,
    ⟨ascii "aof-enabled", .bool .aofEnabled⟩,
    ⟨ascii "aof-check-hz", .int .aofCheckHz 1 100⟩,
    ⟨ascii "aof-filename", .string .aofFilename⟩,
    ⟨ascii "aof-rewrite-min-size", .int .aofRewriteMinSize 0 2000000000⟩,
    ⟨ascii "aof-rewrite-growth", .int .aofRewriteGrowth 10 1000⟩,
    ⟨ascii "aof-rewrite-buf-max-size", .int .aofRewriteBufMaxSize (1024 * 1024) 2000000000⟩,
    ⟨ascii "aof-rewrite-backoff-base-ms", .int .aofRewriteBackoffBaseMs 100 600000⟩,
    ⟨ascii "aof-rewrite-backoff-max-ms", .int .aofRewriteBackoffMaxMs 1000 3600000⟩,
    ⟨ascii "appendfsync", .enum .aofPolicy aofPolicyValues⟩,
    ⟨ascii "aof-fsync-mode", .enum .aofFsyncMode aofFsyncModeValues⟩]

def findConfig (name : Bytes) : Option ConfigEntry := configTable.find? fun entry => entry.name = name

/-- `none` is the source's -1. The value of `strtol` is a `long`, as wide as a `long long`. -/
def applyConfig (entry : ConfigEntry) (value : Bytes) (config : ServerConfig) : Option ServerConfig :=
  match entry.type with
  | .int field min max =>
      let (val, stop) := strtoll value
      if stop ≠ [] then none
      else if val < min ∨ val > max then none
      else some (field.put config val)
  | .bool field =>
      if value = ascii "yes" then some (field.put config true)
      else if value = ascii "no" then some (field.put config false)
      else none
  | .string field => some (field.put config value)
  | .enum field enumValues =>
      match enumValues.findIdx? (· = value) with
      | some i => some (field.put config i)
      | none => none

/-! The file. -/

def lineSize : Nat := 1024

def tokenMax : Nat := 255

/-- fgets: up to a newline, or as much as the buffer holds. -/
def fgets (file : Bytes) : Option (Bytes × Bytes) :=
  if file = [] then none
  else
    let text := (file.takeWhile (· ≠ 10)).length + 1
    let n := min text (lineSize - 1)
    some (file.take n, file.drop n)

def stripNewline (line : Bytes) : Bytes :=
  let line := cstr line
  if line.getLast? = some 10 then line.dropLast else line

/-- `%255s`: one run of bytes that are not white space, or the first 255 of it. -/
def scanToken (s : Bytes) : Bytes × Bytes :=
  let s := s.dropWhile isSpace
  let n := min (s.takeWhile (!isSpace ·)).length tokenMax
  (s.take n, s.drop n)

/-- sscanf with the format `%255s %255s`, if it returns 2. -/
def scanPair (line : Bytes) : Option (Bytes × Bytes) :=
  let (key, rest) := scanToken line
  let (value, _) := scanToken rest
  if key = [] ∨ value = [] then none else some (key, value)

/-- One round of the loop of `load_config` on the line it has read; the second part counts
the errors. -/
def configLine (line : Bytes) (acc : ServerConfig × Nat) : ServerConfig × Nat :=
  let line := stripNewline line
  if line = [] ∨ line.head? = some 35 then acc
  else match scanPair line with
    | none => (acc.1, acc.2 + 1)
    | some (key, value) =>
        match findConfig key with
        | none => (acc.1, acc.2 + 1)
        | some entry =>
            match applyConfig entry value acc.1 with
            | none => (acc.1, acc.2 + 1)
            | some config => (config, acc.2)

def configLoop : (rounds : Nat) → (file : Bytes) → ServerConfig × Nat → ServerConfig × Nat
  | 0, _, acc => acc
  | rounds + 1, file, acc =>
      match fgets file with
      | none => acc
      | some (line, rest) => configLoop rounds rest (configLine line acc)

/-- `load_config` on a file that can be opened; `none` is -1. -/
def loadConfig (file : Bytes) (config : ServerConfig) : Option ServerConfig :=
  match configLoop (file.length + 1) file (config, 0) with
  | (config, 0) => some config
  | _ => none

def serverConfig : Option Bytes → Option ServerConfig
  | none => some {}
  | some file => loadConfig file {}

/-- A configuration that the server can come to run with. -/
def Accepted (config : ServerConfig) : Prop := ∃ file, serverConfig file = some config

/-! Every accepted configuration is within the bounds of the table. -/

namespace ConfigType

def field? : ConfigType → Option IntField
  | int field _ _ => some field
  | _ => none

def Holds (config : ServerConfig) : ConfigType → Prop
  | int field min max => min ≤ field.get config ∧ field.get config ≤ max
  | _ => True

instance (config : ServerConfig) (type : ConfigType) : Decidable (type.Holds config) := by
  cases type <;> unfold Holds <;> infer_instance

end ConfigType

def InBounds (config : ServerConfig) : Prop :=
  ∀ entry ∈ configTable, entry.type.Holds config

theorem default_inBounds : InBounds {} := by
  unfold InBounds
  decide +kernel

theorem configTable_field : ∀ entry ∈ configTable, ∀ entry' ∈ configTable,
    entry.type.field? = entry'.type.field? →
      entry.type.field? = none ∨ entry.type = entry'.type := by
  decide +kernel

theorem findConfig_mem {name : Bytes} {entry : ConfigEntry} (h : findConfig name = some entry) :
    entry ∈ configTable :=
  List.mem_of_find?_eq_some h

theorem InBounds.of_get_eq {config config' : ServerConfig} (h : InBounds config)
    (same : ∀ field : IntField, field.get config' = field.get config) : InBounds config' := by
  intro entry mem
  have holds := h entry mem
  cases type : entry.type with
  | int field min max => simpa [ConfigType.Holds, type, same field] using holds
  | _ => trivial

theorem InBounds.put {config : ServerConfig} (h : InBounds config) {entry : ConfigEntry}
    (mem : entry ∈ configTable) {field : IntField} {min max val : Int}
    (type : entry.type = .int field min max) (low : min ≤ val) (high : val ≤ max) :
    InBounds (field.put config val) := by
  intro entry' mem'
  have holds := h entry' mem'
  cases type' : entry'.type with
  | int field' min' max' =>
      rw [type'] at holds
      simp only [ConfigType.Holds, IntField.get_put] at holds ⊢
      by_cases same : field' = field
      · subst same
        have one := configTable_field entry mem entry' mem' (by simp [type, type', ConfigType.field?])
        simp only [type, type', ConfigType.field?, reduceCtorEq, false_or, ConfigType.int.injEq,
          true_and] at one
        rw [if_pos rfl, ← one.1, ← one.2]
        exact ⟨low, high⟩
      · rw [if_neg same]
        exact holds
  | _ => trivial

theorem InBounds.applyConfig {config config' : ServerConfig} (h : InBounds config)
    {entry : ConfigEntry} (mem : entry ∈ configTable) {value : Bytes}
    (done : applyConfig entry value config = some config') : InBounds config' := by
  unfold ConfigFile.applyConfig at done
  split at done
  case _ field min max type =>
    rcases strtoll value with ⟨val, stop⟩
    dsimp only at done
    split at done
    · cases done
    · split at done
      · cases done
      next bounds =>
        cases done
        push Not at bounds
        exact h.put mem type bounds.1 bounds.2
  case _ field type =>
    split at done
    · cases done
      exact h.of_get_eq (by simp)
    · split at done
      · cases done
        exact h.of_get_eq (by simp)
      · cases done
  case _ field type =>
    cases done
    exact h.of_get_eq (by simp)
  case _ field enumValues type =>
    split at done
    · cases done
      exact h.of_get_eq (by simp)
    · cases done

theorem InBounds.configLine {acc : ServerConfig × Nat} (h : InBounds acc.1) (line : Bytes) :
    InBounds (configLine line acc).1 := by
  unfold ConfigFile.configLine
  dsimp only
  split
  · exact h
  · split
    · exact h
    · split
      · exact h
      next found =>
        split
        · exact h
        next done => exact h.applyConfig (findConfig_mem found) done

theorem InBounds.configLoop (rounds : Nat) : ∀ (file : Bytes) {acc : ServerConfig × Nat},
    InBounds acc.1 → InBounds (configLoop rounds file acc).1 := by
  induction rounds with
  | zero => exact fun _ _ h => h
  | succ rounds ih =>
      intro file acc h
      unfold ConfigFile.configLoop
      cases fgets file with
      | none => exact h
      | some read => exact ih read.2 (h.configLine read.1)

theorem Accepted.inBounds {config : ServerConfig} (h : Accepted config) : InBounds config := by
  obtain ⟨_ | file, h⟩ := h
  · cases h
    exact default_inBounds
  · have loop := InBounds.configLoop (file.length + 1) file
      (show InBounds (({}, 0) : ServerConfig × Nat).1 from default_inBounds)
    simp only [serverConfig, loadConfig] at h
    split at h
    · next config' done =>
        cases h
        rwa [done] at loop
    · cases h

/-! What the results on a server that runs with an accepted configuration use. -/

section Accepted
variable {config : ServerConfig}

theorem Accepted.hz (h : Accepted config) : 1 ≤ config.hz ∧ config.hz ≤ 500 :=
  h.inBounds ⟨ascii "hz", .int .hz 1 500⟩ (by simp [configTable])

theorem Accepted.activeExpirePercent (h : Accepted config) :
    1 ≤ config.activeExpirePercent ∧ config.activeExpirePercent ≤ 100 :=
  h.inBounds ⟨ascii "active-expire-percent", .int .activeExpirePercent 1 100⟩ (by simp [configTable])

theorem Accepted.activeExpireKeysPerRound (h : Accepted config) :
    1 ≤ config.activeExpireKeysPerRound ∧ config.activeExpireKeysPerRound ≤ 1000 :=
  h.inBounds ⟨ascii "active-expire-keys-per-round", .int .activeExpireKeysPerRound 1 1000⟩
    (by simp [configTable])

theorem Accepted.aofRewriteBufMaxSize (h : Accepted config) :
    1024 * 1024 ≤ config.aofRewriteBufMaxSize ∧ config.aofRewriteBufMaxSize ≤ 2000000000 :=
  h.inBounds ⟨ascii "aof-rewrite-buf-max-size", .int .aofRewriteBufMaxSize (1024 * 1024) 2000000000⟩
    (by simp [configTable])

theorem Accepted.aofRewriteBackoffBaseMs (h : Accepted config) :
    100 ≤ config.aofRewriteBackoffBaseMs ∧ config.aofRewriteBackoffBaseMs ≤ 600000 :=
  h.inBounds ⟨ascii "aof-rewrite-backoff-base-ms", .int .aofRewriteBackoffBaseMs 100 600000⟩
    (by simp [configTable])

theorem Accepted.aofRewriteBackoffMaxMs (h : Accepted config) :
    1000 ≤ config.aofRewriteBackoffMaxMs ∧ config.aofRewriteBackoffMaxMs ≤ 3600000 :=
  h.inBounds ⟨ascii "aof-rewrite-backoff-max-ms", .int .aofRewriteBackoffMaxMs 1000 3600000⟩
    (by simp [configTable])

end Accepted

end ByteKV.ConfigFile
