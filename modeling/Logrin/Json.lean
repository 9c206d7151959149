import Logrin.Library.Utf8
import Logrin.PatternFormat

/-!
The JSON form of a record, and the formatter that writes it. The library's `dump` is a
parameter: the texts of the tree decide whether it throws.
-/

namespace Logrin.Nlohmann
open Logrin.Library

/-- `nlohmann::json`. An object holds a key once; its entries stand in the order in which
they were assigned first, which nothing here depends on. -/
inductive Json where
  | null
  | boolean (value : Bool)
  | numberInteger (value : Int64)
  | numberUnsigned (value : UInt64)
  | numberFloat (value : Double)
  | string (value : Bytes)
  | object (entries : List (Bytes × Json))

/-- `nlohmann::json::type_error`. -/
structure TypeError where
  what : Bytes
  deriving DecidableEq

def assign (name : Bytes) (value : Json) : List (Bytes × Json) → List (Bytes × Json)
  | [] => [(name, value)]
  | entry :: entries =>
      if entry.1 = name then (name, value) :: entries else entry :: assign name value entries

namespace Json

/-- `json[name] = value`, where `json` is null or an object. -/
def set (json : Json) (name : Bytes) (value : Json) : Json :=
  match json with
  | .object entries => .object (assign name value entries)
  | _ => .object (assign name value [])

def isNull : Json → Bool
  | .null => true
  | _ => false

def empty : Json → Bool
  | .null => true
  | .object entries => entries.isEmpty
  | _ => false

def entries : Json → List (Bytes × Json)
  | .object entries => entries
  | _ => []

/-- The member of an object, null without one. -/
def get (json : Json) (name : Bytes) : Json := (json.entries.lookup name).getD .null

mutual

def texts : Json → List Bytes
  | .string value => [value]
  | .object entries => entriesTexts entries
  | .null | .boolean _ | .numberInteger _ | .numberUnsigned _ | .numberFloat _ => []

def entriesTexts : List (Bytes × Json) → List Bytes
  | [] => []
  | entry :: entries => entryTexts entry ++ entriesTexts entries

def entryTexts : Bytes × Json → List Bytes
  | (name, value) => name :: value.texts

end

end Json
end Logrin.Nlohmann

namespace Logrin
open Logrin.Library
open Logrin.Pattern (Env)
open Logrin.Nlohmann

/-- The member a field becomes; null for one that is empty. -/
def AttributeValue.toJson : AttributeValue → Json
  | .mono => .null
  | .bool value => .boolean value
  | .uint64 num => .numberUnsigned num
  | .int64 num => .numberInteger num
  | .string num => .string num
  | .double num => .numberFloat num

namespace LogRecord
variable (env : Env) (record : LogRecord)

/-- The time of a record, as `strftime` leaves it in the buffer. -/
def timestampText : Bytes :=
  cString (env.strftime 64 (str "%Y-%m-%dT%H:%M:%SZ") (env.gmtime (env.toTimeT record.timestamp)))

def sourceJson (location : SourceLocation) : Json :=
  let src := Json.null
  let src := if location.file.isEmpty then src else src.set (str "file") (.string location.file)
  let src :=
    if 0 < location.line then src.set (str "line") (.numberUnsigned (.ofNat location.line)) else src
  let src :=
    if 0 < location.column then src.set (str "column") (.numberUnsigned (.ofNat location.column))
    else src
  if location.function.isEmpty then src
  else src.set (str "function") (.string location.function)

/-- One iteration of the loop over the fields. -/
def addField (fields : Json) (field : Sigma fun _ : Bytes => AttributeValue) : Json :=
  let fieldValue := field.2.toJson
  if fieldValue.isNull then fields else fields.set field.1 fieldValue

def fieldsJson (fields : List (Sigma fun _ : Bytes => AttributeValue)) : Json :=
  fields.foldl addField .null

def asJson : Json :=
  let value := Json.null
  let value := value.set (str "@timestamp") (.string (record.timestampText env))
  let value := value.set (str "message") (.string record.message)
  let log := Json.null
  let log := log.set (str "logger") (.string record.logger)
  let log := log.set (str "level") (.string record.level.toString)
  let value := value.set (str "log") log
  let src := sourceJson record.location
  let value := if src.empty then value else value.set (str "source") src
  let fields := fieldsJson record.fields.entries
  if fields.isNull then value else value.set (str "attributes") fields

end LogRecord

namespace Formatter

/-- `formatter::Json`. -/
structure Json where
  pretty : Bool := false
  indentation : Int32 := 4

/-- `Json::Format`, over `dump(indent, indent_char, ensure_ascii)`. -/
def Json.format (dump : Int → UInt8 → Bool → Nlohmann.Json → Except TypeError Bytes) (env : Env)
    (self : Json) (record : LogRecord) : Except TypeError Bytes :=
  dump (if self.pretty then self.indentation.toInt else -1) (ch ' ') true (record.asJson env)

end Formatter
end Logrin

namespace Logrin.Nlohmann
open Logrin.Library

/-- What assigning the entries one after another makes of a null. -/
def Json.ofEntries : List (Bytes × Json) → Json
  | [] => .null
  | entry :: entries => .object (entry :: entries)

theorem assign_fresh {name : Bytes} {entries : List (Bytes × Json)}
    (fresh : ∀ entry ∈ entries, entry.1 ≠ name) (value : Json) :
    assign name value entries = entries ++ [(name, value)] := by
  induction entries with
  | nil => rfl
  | cons entry entries ih =>
      obtain ⟨first, others⟩ := List.forall_mem_cons.mp fresh
      rw [assign, if_neg first, ih others, List.cons_append]

namespace Json

theorem set_ofEntries {name : Bytes} {entries : List (Bytes × Json)}
    (fresh : ∀ entry ∈ entries, entry.1 ≠ name) (value : Json) :
    (ofEntries entries).set name value = ofEntries (entries ++ [(name, value)]) := by
  cases entries with
  | nil => rfl
  | cons entry entries => rw [ofEntries, set, assign_fresh fresh, List.cons_append, ofEntries]

/-- An assignment made under a condition. -/
theorem set_if {p : Prop} [Decidable p] {name : Bytes} {entries : List (Bytes × Json)}
    (fresh : ∀ entry ∈ entries, entry.1 ≠ name) (value : Json) :
    (if p then (ofEntries entries).set name value else ofEntries entries) =
      ofEntries (entries ++ if p then [(name, value)] else []) := by
  split
  · exact set_ofEntries fresh value
  · rw [List.append_nil]

theorem fresh_append {name other : Bytes} {value : Json} {entries : List (Bytes × Json)}
    {p : Prop} [Decidable p] (fresh : ∀ entry ∈ entries, entry.1 ≠ name) (ne : other ≠ name) :
    ∀ entry ∈ entries ++ (if p then [(other, value)] else []), entry.1 ≠ name := by
  apply List.forall_mem_append.mpr ⟨fresh, _⟩
  split <;> simp [ne]

@[simp] theorem isNull_ofEntries (entries : List (Bytes × Json)) :
    (ofEntries entries).isNull = entries.isEmpty := by
  cases entries <;> rfl

@[simp] theorem empty_ofEntries (entries : List (Bytes × Json)) :
    (ofEntries entries).empty = entries.isEmpty := by
  cases entries <;> rfl

theorem entries_ofEntries (entries : List (Bytes × Json)) :
    (ofEntries entries).entries = entries := by
  cases entries <;> rfl

theorem entriesTexts_eq (entries : List (Bytes × Json)) :
    entriesTexts entries = entries.flatMap entryTexts := by
  induction entries with
  | nil => rfl
  | cons entry entries ih => rw [entriesTexts, ih, List.flatMap_cons]

theorem texts_object (entries : List (Bytes × Json)) :
    (Json.object entries).texts = entries.flatMap entryTexts := by
  rw [texts, entriesTexts_eq]

end Json
end Logrin.Nlohmann

namespace Logrin
open Logrin.Library
open Logrin.Pattern (Env)
open Logrin.Nlohmann

def fieldEntries (fields : List (Sigma fun _ : Bytes => AttributeValue)) : List (Bytes × Json) :=
  (fields.filter fun field => !field.2.toJson.isNull).map fun field => (field.1, field.2.toJson)

/-- The member for a list of entries, unless there are none. -/
def optional (name : Bytes) (entries : List (Bytes × Json)) : List (Bytes × Json) :=
  if entries ≠ [] then [(name, .ofEntries entries)] else []

def sourceEntries (location : SourceLocation) : List (Bytes × Json) :=
  (if location.file ≠ [] then [(str "file", .string location.file)] else []) ++
    (if 0 < location.line then [(str "line", .numberUnsigned (.ofNat location.line))] else []) ++
    (if 0 < location.column then [(str "column", .numberUnsigned (.ofNat location.column))]
      else []) ++
    (if location.function ≠ [] then [(str "function", .string location.function)] else [])

namespace LogRecord

theorem ite_isEmpty {α β : Type} (s : List α) (x y : β) :
    (if s.isEmpty then x else y) = if s ≠ [] then y else x := by
  cases s <;> rfl

theorem sourceJson_eq (location : SourceLocation) :
    sourceJson location = .ofEntries (sourceEntries location) := by
  have start : Json.null = .ofEntries [] := rfl
  have none : ∀ name : Bytes, ∀ entry ∈ ([] : List (Bytes × Json)), entry.1 ≠ name := by simp
  simp only [sourceJson, ite_isEmpty, start]
  rw [Json.set_if (none _), Json.set_if (Json.fresh_append (none _) (by decide)),
    Json.set_if (Json.fresh_append (Json.fresh_append (none _) (by decide)) (by decide)),
    Json.set_if (Json.fresh_append (Json.fresh_append (Json.fresh_append (none _) (by decide))
      (by decide)) (by decide))]
  rfl

theorem foldl_addField (fields : List (Sigma fun _ : Bytes => AttributeValue))
    (once : fields.NodupKeys) (entries : List (Bytes × Json))
    (fresh : ∀ entry ∈ entries, ∀ field ∈ fields, entry.1 ≠ field.1) :
    fields.foldl addField (.ofEntries entries) = .ofEntries (entries ++ fieldEntries fields) := by
  induction fields generalizing entries with
  | nil => simp [fieldEntries]
  | cons field fields ih =>
      obtain ⟨first, others⟩ := List.nodupKeys_cons.mp once
      rw [List.foldl_cons, addField]
      cases null : field.2.toJson.isNull with
      | true =>
          rw [if_pos rfl, ih others entries fun entry member field later =>
            fresh entry member field (List.mem_cons_of_mem _ later)]
          simp [fieldEntries, null]
      | false =>
          rw [if_neg (by simp), Json.set_ofEntries fun entry member =>
            fresh entry member field List.mem_cons_self]
          rw [ih others]
          · simp [fieldEntries, null]
          · intro entry member other later same
            cases List.mem_append.mp member with
            | inl old => exact fresh entry old other (List.mem_cons_of_mem _ later) same
            | inr new =>
                obtain rfl := List.mem_singleton.mp new
                have key : field.1 = other.1 := same
                exact first (List.mem_keys.mpr ⟨other.2, by rw [key]; exact later⟩)

/-- The loop over the fields gives each that is not empty its member. -/
theorem fieldsJson_eq (fields : Fields) :
    fieldsJson fields.entries = .ofEntries (fieldEntries fields.entries) :=
  foldl_addField fields.entries fields.nodupKeys [] (by simp)

theorem asJson_eq (env : Env) (record : LogRecord) :
    record.asJson env = .ofEntries
      ([(str "@timestamp", .string (record.timestampText env)),
        (str "message", .string record.message),
        (str "log", .ofEntries [(str "logger", .string record.logger),
          (str "level", .string record.level.toString)])] ++
        optional (str "source") (sourceEntries record.location) ++
        optional (str "attributes") (fieldEntries record.fields.entries)) := by
  have start : Json.null.set (str "@timestamp") (.string (record.timestampText env)) =
      .ofEntries [(str "@timestamp", .string (record.timestampText env))] := rfl
  have log : (Json.null.set (str "logger") (.string record.logger)).set (str "level")
      (.string record.level.toString) = .ofEntries [(str "logger", .string record.logger),
        (str "level", .string record.level.toString)] := by
    have null : Json.null = .ofEntries [] := rfl
    rw [null, Json.set_ofEntries (by simp), Json.set_ofEntries (by simp; decide)]
    rfl
  simp only [asJson, start, log, sourceJson_eq, fieldsJson_eq, Json.empty_ofEntries,
    Json.isNull_ofEntries, ite_isEmpty]
  rw [Json.set_ofEntries (by simp; decide), Json.set_ofEntries (by simp; decide),
    Json.set_if (by simp; decide), Json.set_if (Json.fresh_append (by simp; decide) (by decide))]
  rfl

theorem lookup_fieldEntries {fields : List (Sigma fun _ : Bytes => AttributeValue)} {key : Bytes}
    {value : AttributeValue} (once : fields.NodupKeys) (member : ⟨key, value⟩ ∈ fields)
    (some_ : value.toJson.isNull = false) :
    (fieldEntries fields).lookup key = some value.toJson := by
  induction fields with
  | nil => cases member
  | cons field fields ih =>
      obtain ⟨first, others⟩ := List.nodupKeys_cons.mp once
      cases member with
      | head => simp [fieldEntries, some_]
      | tail _ member =>
          have other : key ≠ field.1 := by
            intro same
            exact first (List.mem_keys.mpr ⟨value, same ▸ member⟩)
          have rest := ih others member
          cases null : field.2.toJson.isNull with
          | true => simpa [fieldEntries, null] using rest
          | false =>
              simpa [fieldEntries, null, List.lookup_cons, beq_eq_false_iff_ne.mpr other] using rest

/-- The texts of a record that its JSON form holds are well formed. -/
structure Utf8 (record : LogRecord) : Prop where
  message : IsUtf8 record.message
  logger : IsUtf8 record.logger
  file : IsUtf8 record.location.file
  function : IsUtf8 record.location.function
  name : ∀ field ∈ record.fields.entries, field.2 ≠ .mono → IsUtf8 field.1
  value : ∀ field ∈ record.fields.entries, ∀ text, field.2 = .string text → IsUtf8 text

theorem level_utf8 (level : LogLevel) : IsUtf8 level.toString := by
  cases level <;> exact isUtf8_str _

end LogRecord

/-- All keys and string values are well formed. -/
def Utf8Entries (entries : List (Bytes × Json)) : Prop :=
  ∀ entry ∈ entries, ∀ text ∈ Json.entryTexts entry, IsUtf8 text

theorem utf8_ofEntries {entries : List (Bytes × Json)} :
    (∀ text ∈ (Json.ofEntries entries).texts, IsUtf8 text) ↔ Utf8Entries entries := by
  cases entries with
  | nil => simp [Json.ofEntries, Json.texts, Utf8Entries]
  | cons entry entries =>
      rw [Json.ofEntries, Json.texts_object, Utf8Entries]
      simp only [List.mem_flatMap]
      exact ⟨fun h entry member text inside => h text ⟨entry, member, inside⟩,
        fun h text ⟨entry, member, inside⟩ => h entry member text inside⟩

@[simp] theorem utf8Entries_nil : Utf8Entries [] ↔ True := by simp [Utf8Entries]

@[simp] theorem utf8Entries_cons {name : Bytes} {value : Json} {entries : List (Bytes × Json)} :
    Utf8Entries ((name, value) :: entries) ↔
      (IsUtf8 name ∧ ∀ text ∈ value.texts, IsUtf8 text) ∧ Utf8Entries entries := by
  simp [Utf8Entries, Json.entryTexts]

@[simp] theorem utf8Entries_append {xs ys : List (Bytes × Json)} :
    Utf8Entries (xs ++ ys) ↔ Utf8Entries xs ∧ Utf8Entries ys :=
  List.forall_mem_append

theorem utf8Entries_optional {name : String} {entries : List (Bytes × Json)} :
    Utf8Entries (optional (str name) entries) ↔ Utf8Entries entries := by
  cases entries with
  | nil => simp [optional]
  | cons entry entries => simp [optional, utf8_ofEntries, isUtf8_str]

@[simp] theorem utf8_string {text : Bytes} :
    (∀ t ∈ (Json.string text).texts, IsUtf8 t) ↔ IsUtf8 text := by
  simp [Json.texts]

@[simp] theorem utf8Entries_if {p : Prop} [Decidable p] {name : String} {value : Json} :
    Utf8Entries (if p then [(str name, value)] else []) ↔ (p → ∀ t ∈ value.texts, IsUtf8 t) := by
  split <;> simp [isUtf8_str, *]

theorem isUtf8_of_ne_nil {s : Bytes} : (s ≠ [] → IsUtf8 s) ↔ IsUtf8 s := by
  constructor
  · intro h
    by_cases none : s = []
    · rw [none]
      exact isUtf8_nil
    · exact h none
  · exact fun h _ => h

theorem utf8_sourceEntries {location : SourceLocation} :
    Utf8Entries (sourceEntries location) ↔ IsUtf8 location.file ∧ IsUtf8 location.function := by
  simp only [sourceEntries, utf8Entries_append, utf8Entries_if, utf8_string, isUtf8_of_ne_nil]
  simp [Json.texts]

theorem utf8_fieldEntries {fields : List (Sigma fun _ : Bytes => AttributeValue)} :
    Utf8Entries (fieldEntries fields) ↔
      ∀ field ∈ fields, (field.2 ≠ .mono → IsUtf8 field.1) ∧
        ∀ text, field.2 = .string text → IsUtf8 text := by
  induction fields with
  | nil => simp [fieldEntries]
  | cons field fields ih =>
      obtain ⟨name, value⟩ := field
      rw [List.forall_mem_cons, ← ih]
      cases value <;> simp [fieldEntries, AttributeValue.toJson, Json.isNull, Json.texts]

namespace LogRecord

/-- The texts of the tree are those of the record and of its clock. -/
theorem utf8_asJson {env : Env} {record : LogRecord}
    (clock : IsUtf8 (record.timestampText env)) :
    (∀ text ∈ (record.asJson env).texts, IsUtf8 text) ↔ record.Utf8 := by
  rw [asJson_eq, utf8_ofEntries]
  simp only [utf8Entries_append, utf8Entries_cons, utf8Entries_nil, utf8Entries_optional,
    utf8_sourceEntries, utf8_fieldEntries, utf8_ofEntries, utf8_string, isUtf8_str, clock,
    level_utf8, true_and, and_true]
  constructor
  · intro h
    obtain ⟨⟨⟨message, logger⟩, file, function⟩, fields⟩ := h
    exact {
      message, logger, file, function
      name := fun field member => (fields field member).1
      value := fun field member => (fields field member).2 }
  · intro h
    exact ⟨⟨⟨h.message, h.logger⟩, h.file, h.function⟩, fun field member =>
      ⟨h.name field member, h.value field member⟩⟩

end LogRecord

/-- `strftime` of the time format gives ASCII. -/
def AsciiClock (env : Env) : Prop :=
  ∀ tm, ∀ c ∈ env.expandTime (str "%Y-%m-%dT%H:%M:%SZ") tm, c < 128

theorem timestampText_utf8 {env : Env} (clock : AsciiClock env) (record : LogRecord) :
    IsUtf8 (record.timestampText env) := by
  apply isUtf8_of_ascii
  intro c member
  have format : cString (str "%Y-%m-%dT%H:%M:%SZ") = str "%Y-%m-%dT%H:%M:%SZ" := by decide
  have inside := List.takeWhile_subset _ member
  rw [Env.strftime, format] at inside
  split at inside
  · exact clock _ c inside
  · cases inside

/-- `dump` with the strict error handler: it throws exactly when a text is malformed. -/
def StrictDump (dump : Int → UInt8 → Bool → Json → Except TypeError Bytes) : Prop :=
  ∀ indent pad ascii tree,
    (∃ out, dump indent pad ascii tree = .ok out) ↔ ∀ text ∈ tree.texts, IsUtf8 text

/-- Formatting succeeds for the records whose texts are well formed, and for no others. -/
theorem Formatter.Json.format_ok_iff
    {dump : Int → UInt8 → Bool → Nlohmann.Json → Except TypeError Bytes} {env : Env}
    (strict : StrictDump dump) (clock : AsciiClock env) (self : Formatter.Json)
    (record : LogRecord) :
    (∃ out, self.format dump env record = .ok out) ↔ record.Utf8 :=
  (strict _ _ _ _).trans (LogRecord.utf8_asJson (timestampText_utf8 clock record))

end Logrin
