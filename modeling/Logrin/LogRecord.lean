import Logrin.Library.Bytes
import Mathlib.Data.List.AList

/-!
Log levels, attribute values and log records. A record's `UnorderedMap` of fields is an
association list without repeated keys; the order of its entries stands for the map's
iteration order, which no operation here promises anything about.

The message and the name of the logger are views of texts that a record does not own. They are given
as the texts that they show when the record is made, and what reads a record later says what it
finds there.
-/

namespace Logrin
open Logrin.Library

inductive LogLevel where
  | trace
  | debug
  | info
  | warning
  | error
  | fatal
  | off
  deriving DecidableEq

/-- The enumerator's `UInt8` value, by which levels are compared. -/
def LogLevel.toNat : LogLevel → Nat
  | .trace => 0
  | .debug => 1
  | .info => 2
  | .warning => 3
  | .error => 4
  | .fatal => 5
  | .off => 6

def LogLevel.toString : LogLevel → Bytes
  | .trace => str "trace"
  | .debug => str "debug"
  | .info => str "info"
  | .warning => str "warning"
  | .error => str "error"
  | .fatal => str "fatal"
  | .off => str "off"

/-- A `double`, by its bits. -/
structure Double where
  bits : UInt64
  deriving DecidableEq

/-- The alternatives of `AttributeValue::value_t`. -/
inductive AttributeValue where
  | mono
  | bool (value : Bool)
  | int64 (value : Int64)
  | uint64 (value : UInt64)
  | double (value : Double)
  | string (value : Bytes)
  deriving DecidableEq

abbrev Fields := AList (fun _ : Bytes => AttributeValue)

/-- `UnorderedMap::emplace`: an existing key keeps its value. -/
def Fields.emplace (fields : Fields) (name : Bytes) (value : AttributeValue) : Fields :=
  if name ∈ fields then fields else AList.insert name value fields

structure SourceLocation where
  file : Bytes
  line : Nat
  column : Nat
  function : Bytes
  deriving DecidableEq

structure LogRecord where
  /-- milliseconds since the epoch -/
  timestamp : Int
  level : LogLevel
  message : Bytes
  fields : Fields
  logger : Bytes
  location : SourceLocation
  deriving DecidableEq

namespace LogRecord

/-- `LogRecord{ }`. -/
def default : LogRecord where
  timestamp := 0
  level := .trace
  message := []
  fields := ∅
  logger := []
  location := { file := [], line := 0, column := 0, function := [] }

/-- `LogRecord::Now` at the time `time` of the system clock. -/
def now (time : Int) (level : LogLevel) (message : Bytes) (location : SourceLocation) :
    LogRecord where
  timestamp := time
  level := level
  message := message
  fields := ∅
  logger := []
  location := location

/-- `LogRecord::With`. -/
def withField (record : LogRecord) (name : Bytes) (value : AttributeValue) : LogRecord :=
  { record with fields := Fields.emplace record.fields name value }

end LogRecord

theorem Fields.lookup_emplace (fields : Fields) (name key : Bytes) (value : AttributeValue) :
    (Fields.emplace fields name value).lookup key =
      (fields.lookup key).or (if key = name then some value else none) := by
  simp only [emplace]
  split
  · next present =>
      by_cases hk : key = name
      · subst hk
        obtain ⟨old, hold⟩ := Option.isSome_iff_exists.mp (AList.lookup_isSome.mpr present)
        simp [hold]
      · simp [hk]
  · next absent =>
      by_cases hk : key = name
      · subst hk
        simp [AList.lookup_insert, AList.lookup_eq_none.mpr absent]
      · simp [AList.lookup_insert_ne hk, hk]

end Logrin
