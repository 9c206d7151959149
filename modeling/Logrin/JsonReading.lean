import Logrin.OpenTelemetry

/-!
Reading a record back from its JSON form. The members are looked up by name, so their order does
not matter. What comes back is the whole record except for the fields without a value and for the
clock, of which the text is kept.
-/

namespace Logrin.Nlohmann.Json
open Logrin.Library

def text : Json → Option Bytes
  | .string value => some value
  | _ => none

def number : Json → Option Nat
  | .numberUnsigned value => some value.toNat
  | _ => none

/-- The value of an attribute. -/
def value : Json → Option AttributeValue
  | .boolean value => some (.bool value)
  | .numberInteger value => some (.int64 value)
  | .numberUnsigned value => some (.uint64 value)
  | .numberFloat value => some (.double value)
  | .string value => some (.string value)
  | .null | .object _ => none

theorem get_ofEntries (entries : List (Bytes × Json)) (name : Bytes) :
    (ofEntries entries).get name = (entries.lookup name).getD .null := by
  rw [get, entries_ofEntries]

end Logrin.Nlohmann.Json

namespace Logrin
open Logrin.Library
open Logrin.Pattern (Env)
open Logrin.Nlohmann

/-- What a JSON form says about a record. -/
structure Content where
  timestamp : Bytes
  message : Bytes
  logger : Bytes
  level : LogLevel
  location : SourceLocation
  field : Bytes → Option AttributeValue

def readLevel (text : Bytes) : Option LogLevel :=
  [.trace, .debug, .info, .warning, .error, .fatal, .off].find? fun level : LogLevel =>
    level.toString = text

def readLocation (json : Json) : SourceLocation where
  file := (json.get (str "file")).text.getD []
  line := (json.get (str "line")).number.getD 0
  column := (json.get (str "column")).number.getD 0
  function := (json.get (str "function")).text.getD []

def readRecord (json : Json) : Option Content := do
  let timestamp ← (json.get (str "@timestamp")).text
  let message ← (json.get (str "message")).text
  let log := json.get (str "log")
  let logger ← (log.get (str "logger")).text
  let level ← (log.get (str "level")).text.bind readLevel
  some
    { timestamp := timestamp
      message := message
      logger := logger
      level := level
      location := readLocation (json.get (str "source"))
      field := fun key => ((json.get (str "attributes")).get key).value }

/-- What is kept of a record: line and column in 64 bits, and the fields that have a value. -/
def LogRecord.content (env : Env) (record : LogRecord) : Content where
  timestamp := record.timestampText env
  message := record.message
  logger := record.logger
  level := record.level
  location :=
    { record.location with
      line := record.location.line % 2 ^ 64
      column := record.location.column % 2 ^ 64 }
  field key := (record.fields.lookup key).filter fun value => value ≠ .mono

section Reading
variable {name key : Bytes}

theorem readLevel_toString (level : LogLevel) : readLevel level.toString = some level := by
  cases level <;> decide

theorem value_toJson (value : AttributeValue) :
    value.toJson.value = if value = .mono then none else some value := by
  cases value <;> simp [AttributeValue.toJson, Json.value]

theorem lookup_if {p : Prop} [Decidable p] (value : Json) :
    (if p then [(name, value)] else []).lookup key =
      if p ∧ name = key then some value else none := by
  by_cases holds : p
  · by_cases same : key = name
    · simp [holds, same]
    · simp [holds, List.lookup_cons, beq_eq_false_iff_ne.mpr same, Ne.symm same]
  · simp [holds]

/-- A member that is left out when it has no entries reads as one without entries. -/
theorem get_optional (entries : List (Bytes × Json)) :
    ((optional name entries).lookup name).getD .null = .ofEntries entries := by
  rw [optional, lookup_if]
  cases entries <;> simp [Json.ofEntries]

theorem readLocation_sourceEntries (location : SourceLocation) :
    readLocation (.ofEntries (sourceEntries location)) =
      { location with line := location.line % 2 ^ 64, column := location.column % 2 ^ 64 } := by
  have text : ∀ s : Bytes,
      ((if s ≠ [] then some (Json.string s) else none).getD .null).text.getD [] = s := by
    intro s
    cases s <;> rfl
  have number : ∀ n : Nat, ((if 0 < n then some (Json.numberUnsigned (.ofNat n)) else
      none).getD .null).number.getD 0 = n % 2 ^ 64 := by
    intro n
    cases n <;> rfl
  simp +decide only [readLocation, Json.get_ofEntries, sourceEntries, List.lookup_append,
    lookup_if, and_true, and_false, if_false, Option.none_or, Option.or_none, text, number]

theorem fieldEntries_cons (name : Bytes) (value : AttributeValue)
    (fields : List (Sigma fun _ : Bytes => AttributeValue)) :
    fieldEntries (⟨name, value⟩ :: fields) =
      (if value ≠ .mono then [(name, value.toJson)] else []) ++ fieldEntries fields := by
  cases value <;> rfl

/-- The fields are read back one by one. -/
theorem value_fieldEntries {fields : List (Sigma fun _ : Bytes => AttributeValue)}
    (once : fields.NodupKeys) (key : Bytes) :
    (((fieldEntries fields).lookup key).getD .null).value =
      (fields.dlookup key).filter fun value => value ≠ .mono := by
  induction fields with
  | nil => rfl
  | cons field fields ih =>
      obtain ⟨name, value⟩ := field
      obtain ⟨first, others⟩ := List.nodupKeys_cons.mp once
      rw [fieldEntries_cons, List.lookup_append, lookup_if]
      by_cases same : key = name
      · subst same
        have none : fields.dlookup key = none := List.dlookup_eq_none.mpr first
        rw [List.dlookup_cons_eq]
        by_cases mono : value = .mono
        · rw [if_neg fun both => both.1 mono, Option.none_or, ih others, none, mono]
          rfl
        · rw [if_pos ⟨mono, rfl⟩, Option.some_or, Option.getD_some, value_toJson, if_neg mono,
            Option.filter_some, if_pos (by simpa using mono)]
      · rw [List.dlookup_cons_ne _ _ same, if_neg fun both => same both.2.symm, Option.none_or,
          ih others]

theorem get_source (env : Env) (record : LogRecord) :
    (record.asJson env).get (str "source") = .ofEntries (sourceEntries record.location) := by
  have other : (optional (str "attributes") (fieldEntries record.fields.entries)).lookup
      (str "source") = none := by
    simp +decide [optional]
  rw [LogRecord.asJson_eq, Json.get_ofEntries, List.lookup_append, other, Option.or_none,
    List.lookup_append]
  exact get_optional _

/-- Reading the JSON form of a record gives the record back. -/
theorem readRecord_asJson (env : Env) (record : LogRecord) :
    readRecord (record.asJson env) = some (record.content env) := by
  have timestamp : (record.asJson env).get (str "@timestamp") =
      .string (record.timestampText env) := by
    rw [LogRecord.asJson_eq]
    rfl
  have message : (record.asJson env).get (str "message") = .string record.message := by
    rw [LogRecord.asJson_eq]
    rfl
  have log : (record.asJson env).get (str "log") = .ofEntries [(str "logger",
      .string record.logger), (str "level", .string record.level.toString)] := by
    rw [LogRecord.asJson_eq]
    rfl
  have fields : (fun key => ((Json.ofEntries (fieldEntries record.fields.entries)).get key).value) =
      (record.content env).field := by
    funext key
    rw [Json.get_ofEntries]
    exact value_fieldEntries record.fields.nodupKeys key
  have logger : (Json.ofEntries [(str "logger", .string record.logger),
      (str "level", .string record.level.toString)]).get (str "logger") =
        .string record.logger := rfl
  have level : (Json.ofEntries [(str "logger", .string record.logger),
      (str "level", .string record.level.toString)]).get (str "level") =
        .string record.level.toString := rfl
  simp only [readRecord, timestamp, message, log, logger, level, get_source, get_attributes,
    readLocation_sourceEntries, fields, Json.text, Option.bind_some, readLevel_toString]
  rfl

end Reading

end Logrin
