import Logrin.Json
import Logrin.Library.Loop
import Mathlib.Algebra.Group.Int.Defs

/-!
The conversion of a record for OpenTelemetry, and its agreement with the JSON form: both
show every field that is not empty, once and with the same value.
-/

namespace Logrin
open Logrin.Library
open Logrin.Pattern (Env)

namespace OpenTelemetry

inductive Severity where
  | trace
  | debug
  | info
  | warn
  | error
  | fatal
  deriving DecidableEq

/-- `opentelemetry::common::AttributeValue`, of the alternatives used here. -/
inductive Value where
  | bool (value : Bool)
  | int64 (value : Int64)
  | double (value : Double)
  | string (value : Bytes)
  deriving DecidableEq

/-- What ends the process: a failing `VIOLET_ASSERT`, or `VIOLET_UNREACHABLE`. -/
inductive Abort where
  | assertion (text : Bytes)
  | unreachable
  deriving DecidableEq

/-- What has been set on an `opentelemetry::logs::LogRecord`; the attributes in the order of
the calls of `SetAttribute`. -/
structure Record where
  observedTimestamp : Int
  severity : Severity
  body : Bytes
  attributes : List (Bytes × Value)
  deriving DecidableEq

def logLevelToSeverity : LogLevel → Except Abort Severity
  | .trace => .ok .trace
  | .debug => .ok .debug
  | .info => .ok .info
  | .warning => .ok .warn
  | .error => .ok .error
  | .fatal => .ok .fatal
  | .off => .error .unreachable

def convertLogrinAttributeValue : AttributeValue → Except Abort Value
  | .bool value => .ok (.bool value)
  | .int64 value => .ok (.int64 value)
  | .uint64 num =>
      if num ≤ Int64.maxValue.toUInt64 then .ok (.int64 num.toInt64)
      else .error (.assertion (str "lossly conversion not possible: reached max limit of int64"))
  | .double value => .ok (.double value)
  | .string value => .ok (.string value)
  | .mono => .error .unreachable

/-- One iteration of the loop over the fields, as the attributes it sets. -/
def setAttribute (field : Sigma fun _ : Bytes => AttributeValue) :
    Except Abort (List (Bytes × Value)) :=
  if field.2 = .mono then .ok []
  else do
    let value ← convertLogrinAttributeValue field.2
    .ok [(field.1, value)]

def logRecordToOpenTelemetry (record : LogRecord) : Except Abort Record := do
  let severity ← logLevelToSeverity record.level
  let attributes ← concatM setAttribute record.fields.entries
  .ok
    { observedTimestamp := record.timestamp
      severity := severity
      body := record.message
      attributes := attributes }

end OpenTelemetry

/-- What a field shows, whatever the width of its number. -/
inductive Shown where
  | bool (value : Bool)
  | number (value : Int)
  | double (value : Double)
  | string (value : Bytes)
  deriving DecidableEq

def AttributeValue.shown : AttributeValue → Option Shown
  | .mono => none
  | .bool value => some (.bool value)
  | .int64 value => some (.number value.toInt)
  | .uint64 value => some (.number value.toNat)
  | .double value => some (.double value)
  | .string value => some (.string value)

def OpenTelemetry.Value.shown : OpenTelemetry.Value → Shown
  | .bool value => .bool value
  | .int64 value => .number value.toInt
  | .double value => .double value
  | .string value => .string value

def Nlohmann.Json.shown : Nlohmann.Json → Option Shown
  | .boolean value => some (.bool value)
  | .numberInteger value => some (.number value.toInt)
  | .numberUnsigned value => some (.number value.toNat)
  | .numberFloat value => some (.double value)
  | .string value => some (.string value)
  | .null | .object _ => none

def OpenTelemetry.Record.pairs (log : OpenTelemetry.Record) : List (Bytes × Option Shown) :=
  log.attributes.map fun entry => (entry.1, some entry.2.shown)

/-- The pairs that the JSON form of a record shows under `attributes`. -/
def LogRecord.jsonPairs (env : Env) (record : LogRecord) : List (Bytes × Option Shown) :=
  ((record.asJson env).get (str "attributes")).entries.map fun entry => (entry.1, entry.2.shown)

def shownFields (fields : List (Sigma fun _ : Bytes => AttributeValue)) :
    List (Bytes × Option Shown) :=
  (fields.filter fun field => field.2 ≠ .mono).map fun field => (field.1, field.2.shown)

/-- Every unsigned number fits into 64 bits with a sign. -/
def LogRecord.Narrow (record : LogRecord) : Prop :=
  ∀ field ∈ record.fields.entries, ∀ num, field.2 = .uint64 num → num.toNat < 2 ^ 63

section Json

theorem toJson_isNull (value : AttributeValue) :
    value.toJson.isNull = decide (value = .mono) := by
  cases value <;> simp [AttributeValue.toJson, Nlohmann.Json.isNull]

theorem toJson_shown (value : AttributeValue) : value.toJson.shown = value.shown := by
  cases value <;> rfl

theorem lookup_optional {name key : Bytes} {entries : List (Bytes × Nlohmann.Json)} :
    (optional name entries).lookup key =
      if key = name ∧ entries ≠ [] then some (.ofEntries entries) else none := by
  cases entries with
  | nil => simp [optional]
  | cons entry entries =>
      by_cases same : key = name
      · simp [optional, same]
      · simp [optional, same, List.lookup_cons, beq_eq_false_iff_ne.mpr same]

theorem get_attributes (env : Env) (record : LogRecord) :
    (record.asJson env).get (str "attributes") =
      .ofEntries (fieldEntries record.fields.entries) := by
  have head : ∀ timestamp message log : Nlohmann.Json,
      [(str "@timestamp", timestamp), (str "message", message), (str "log", log)].lookup
        (str "attributes") = none := by
    intro timestamp message log
    rfl
  have source : str "attributes" ≠ str "source" := by decide
  rw [LogRecord.asJson_eq, Nlohmann.Json.get, Nlohmann.Json.entries_ofEntries, List.lookup_append,
    List.lookup_append, head, lookup_optional, lookup_optional, if_neg (fun h => source h.1)]
  cases fieldEntries record.fields.entries <;> rfl

/-- The JSON form shows each field that is not empty, once. -/
theorem jsonPairs_eq (env : Env) (record : LogRecord) :
    record.jsonPairs env = shownFields record.fields.entries := by
  have kept : (fun field : Sigma fun _ : Bytes => AttributeValue => !field.2.toJson.isNull) =
      fun field => decide (field.2 ≠ .mono) := by
    funext field
    simp [toJson_isNull]
  rw [LogRecord.jsonPairs, get_attributes, Nlohmann.Json.entries_ofEntries, fieldEntries,
    List.map_map, shownFields, kept]
  apply List.map_congr_left
  intro field _
  exact congrArg (Prod.mk field.1) (toJson_shown field.2)

theorem names_shownFields (fields : Fields) :
    ((shownFields fields.entries).map Prod.fst).Nodup := by
  rw [shownFields, List.map_map]
  exact (List.filter_sublist.map Sigma.fst).nodup fields.nodupKeys

theorem mem_shownFields {fields : Fields} {name : Bytes} {shown : Option Shown} :
    (name, shown) ∈ shownFields fields.entries ↔
      ∃ value, fields.lookup name = some value ∧ value ≠ .mono ∧ shown = value.shown := by
  simp only [shownFields, List.mem_map, List.mem_filter, decide_eq_true_eq]
  constructor
  · intro h
    obtain ⟨field, ⟨member, kept⟩, same⟩ := h
    cases same
    exact ⟨field.2, AList.mem_lookup_iff.mpr member, kept, rfl⟩
  · intro h
    obtain ⟨value, found, kept, rfl⟩ := h
    exact ⟨⟨name, value⟩, ⟨AList.mem_lookup_iff.mp found, kept⟩, rfl⟩

end Json

namespace OpenTelemetry

theorem narrow_iff {num : UInt64} : num ≤ Int64.maxValue.toUInt64 ↔ num.toNat < 2 ^ 63 := by
  rw [UInt64.le_iff_toNat_le]
  exact Nat.lt_succ_iff.symm

theorem toInt64_toInt {num : UInt64} (narrow : num.toNat < 2 ^ 63) :
    num.toInt64.toInt = num.toNat := by
  rw [← Int64.toInt_toBitVec, UInt64.toBitVec_toInt64, BitVec.toInt_eq_toNat_of_lt]
  · rfl
  · rw [UInt64.toNat_toBitVec]
    omega

theorem convert_shown {value : AttributeValue} {converted : Value}
    (h : convertLogrinAttributeValue value = .ok converted) :
    value.shown = some converted.shown := by
  cases value with
  | mono => cases h
  | uint64 num =>
      simp only [convertLogrinAttributeValue] at h
      split at h
      · next le =>
          cases h
          simp only [AttributeValue.shown, Value.shown, toInt64_toInt (narrow_iff.mp le)]
      · cases h
  | bool | int64 | double | string =>
      cases h
      rfl

theorem setAttribute_shown {field : Sigma fun _ : Bytes => AttributeValue}
    {x : List (Bytes × Value)} (h : setAttribute field = .ok x) :
    x.map (fun entry => (entry.1, some entry.2.shown)) =
      if field.2 = .mono then [] else [(field.1, field.2.shown)] := by
  rw [setAttribute] at h
  split at h
  · next empty =>
      cases h
      rw [if_pos empty]
      rfl
  · next some =>
      obtain ⟨value, hvalue, h⟩ := bind_eq_ok.mp h
      cases h
      rw [if_neg some, convert_shown hvalue]
      rfl

def lossy : Abort :=
  .assertion (str "lossly conversion not possible: reached max limit of int64")

theorem setAttribute_uint64 (name : Bytes) (num : UInt64) :
    setAttribute ⟨name, .uint64 num⟩ =
      if num.toNat < 2 ^ 63 then .ok [(name, .int64 num.toInt64)] else .error lossy := by
  have some : AttributeValue.uint64 num ≠ .mono := by simp
  rw [setAttribute, if_neg some]
  simp only [convertLogrinAttributeValue, narrow_iff]
  split <;> rfl

theorem setAttribute_ok_iff {field : Sigma fun _ : Bytes => AttributeValue} :
    (∃ x, setAttribute field = .ok x) ↔ ∀ num, field.2 = .uint64 num → num.toNat < 2 ^ 63 := by
  obtain ⟨name, value⟩ := field
  cases value with
  | uint64 num =>
      rw [setAttribute_uint64]
      by_cases narrow : num.toNat < 2 ^ 63
      · rw [if_pos narrow]
        constructor
        · intro _ _ same
          cases same
          exact narrow
        · exact fun _ => ⟨_, rfl⟩
      · rw [if_neg narrow]
        constructor
        · intro h
          obtain ⟨_, h⟩ := h
          cases h
        · exact fun h => absurd (h num rfl) narrow
  | mono | bool | int64 | double | string => simp [setAttribute, convertLogrinAttributeValue]

theorem setAttribute_error {field : Sigma fun _ : Bytes => AttributeValue} {abort : Abort}
    (h : setAttribute field = .error abort) : abort = lossy := by
  obtain ⟨name, value⟩ := field
  cases value with
  | uint64 num =>
      rw [setAttribute_uint64] at h
      split at h
      · cases h
      · exact (Except.error.inj h).symm
  | mono | bool | int64 | double | string => simp [setAttribute, convertLogrinAttributeValue] at h

variable {record : LogRecord} {log : Record}

theorem pairs_eq (h : logRecordToOpenTelemetry record = .ok log) :
    log.pairs = shownFields record.fields.entries := by
  obtain ⟨severity, _, h⟩ := bind_eq_ok.mp h
  obtain ⟨attributes, hattributes, h⟩ := bind_eq_ok.mp h
  cases h
  rw [Record.pairs, concatM_summary _ hattributes fun _ _ _ => setAttribute_shown, shownFields]
  generalize record.fields.entries = fields
  induction fields with
  | nil => rfl
  | cons field fields ih =>
      rw [List.flatMap_cons, ih]
      by_cases empty : field.2 = .mono
      · rw [if_pos empty, List.filter_cons_of_neg (by simp [empty]), List.nil_append]
      · rw [if_neg empty, List.filter_cons_of_pos (by simp [empty])]
        rfl

theorem severity_ok (level : record.level ≠ .off) :
    ∃ severity, logLevelToSeverity record.level = .ok severity := by
  cases hlevel : record.level with
  | off => exact absurd hlevel level
  | trace | debug | info | warning | error | fatal => exact ⟨_, rfl⟩

theorem convert_ok (level : record.level ≠ .off) (narrow : record.Narrow) :
    ∃ log, logRecordToOpenTelemetry record = .ok log := by
  obtain ⟨severity, hseverity⟩ := severity_ok level
  obtain ⟨attributes, hattributes⟩ := concatM_ok fun field member =>
    setAttribute_ok_iff.mpr (narrow field member)
  exact ⟨_, by rw [logRecordToOpenTelemetry, hseverity, hattributes]; rfl⟩

theorem convert_lossy (level : record.level ≠ .off) (wide : ¬ record.Narrow) :
    logRecordToOpenTelemetry record = .error lossy := by
  obtain ⟨severity, hseverity⟩ := severity_ok level
  cases hattributes : concatM setAttribute record.fields.entries with
  | ok attributes =>
      exact absurd (fun field member =>
        setAttribute_ok_iff.mp (concatM_each hattributes field member)) wide
  | error abort =>
      obtain ⟨field, _, failed⟩ := concatM_error hattributes
      rw [logRecordToOpenTelemetry, hseverity, hattributes, setAttribute_error failed]
      rfl

/-- The two structured forms of a record agree, unless an unsigned number is too wide for the
assertion. -/
theorem back_ends_agree (env : Env) (level : record.level ≠ .off) :
    (record.Narrow → ∃ log, logRecordToOpenTelemetry record = .ok log ∧
      log.pairs = record.jsonPairs env ∧ (log.pairs.map Prod.fst).Nodup ∧
      ∀ name shown, (name, shown) ∈ log.pairs ↔
        ∃ value, record.fields.lookup name = some value ∧ value ≠ .mono ∧ shown = value.shown) ∧
    (¬ record.Narrow → logRecordToOpenTelemetry record = .error lossy) := by
  constructor
  · intro narrow
    obtain ⟨log, hlog⟩ := convert_ok level narrow
    have pairs := pairs_eq hlog
    refine ⟨log, hlog, ?_, ?_, ?_⟩
    · rw [pairs, jsonPairs_eq]
    · rw [pairs]
      exact names_shownFields record.fields
    · intro name shown
      rw [pairs]
      exact mem_shownFields
  · exact convert_lossy level

def oneField (value : AttributeValue) : LogRecord :=
  LogRecord.default.withField (str "n") value

theorem back_ends_agree_sample :
    ∃ log, logRecordToOpenTelemetry (oneField (.uint64 69)) = .ok log ∧
      log.pairs = (oneField (.uint64 69)).jsonPairs default := by
  have level : (oneField (.uint64 69)).level ≠ .off := by decide
  have narrow : (oneField (.uint64 69)).Narrow := by
    intro field member num same
    rw [show (oneField (.uint64 69)).fields.entries = [⟨str "n", .uint64 69⟩] from rfl] at member
    obtain rfl := List.mem_singleton.mp member
    cases same
    decide
  obtain ⟨log, hlog, agree, _⟩ := (back_ends_agree default level).1 narrow
  exact ⟨log, hlog, agree⟩

theorem conversion_can_abort : ¬ ∀ record : LogRecord, record.level ≠ .off →
    ∃ log, logRecordToOpenTelemetry record = .ok log := by
  intro always
  obtain ⟨log, hlog⟩ := always (oneField (.uint64 9223372036854775808)) (by decide)
  have failed : logRecordToOpenTelemetry (oneField (.uint64 9223372036854775808)) =
      .error lossy := by decide +kernel
  rw [failed] at hlog
  cases hlog

end OpenTelemetry
end Logrin
