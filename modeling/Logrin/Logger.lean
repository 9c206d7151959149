import Logrin.LogRecord

/-!
`Logger` and `LogEntry`: which sink calls the entry returned by a log call makes when it
is destroyed. Only `Log(level, message)` looks at the logger's level; the methods named
after a level go straight to `Log(record)`.
-/

namespace Logrin
open Logrin.Library

universe u v
variable {σ : Type u} {α : Type v}

structure Logger (σ : Type u) (α : Type v) where
  level : LogLevel
  name : Bytes
  sinks : List σ
  asyncSinks : List α

inductive SinkCall (σ : Type u) (α : Type v) where
  | emit (sink : σ) (record : LogRecord)
  | enqueue (sink : α) (record : LogRecord)
  deriving DecidableEq

structure LogEntry (σ : Type u) (α : Type v) where
  parent : Option (Logger σ α)
  record : LogRecord
  emit : Bool

namespace LogEntry

def withAttribute (entry : LogEntry σ α) (name : Bytes) (value : AttributeValue) :
    LogEntry σ α :=
  { entry with record := entry.record.withField name value }

/-- `~LogEntry`, as the sink calls it makes in order. -/
def destroy (entry : LogEntry σ α) : List (SinkCall σ α) :=
  match entry.emit, entry.parent with
  | true, some parent =>
      parent.sinks.map (fun sink => .emit sink entry.record) ++
        parent.asyncSinks.map (fun sink => .enqueue sink entry.record)
  | _, _ => []

end LogEntry

/-- The message, source location and clock reading a log call passes on. -/
structure Message where
  text : Bytes
  location : SourceLocation
  time : Int

namespace Logger

def enabled (log : Logger σ α) (level : LogLevel) : Bool :=
  if level = .off then false else log.level.toNat ≤ level.toNat

/-- `Log(LogRecord)`. -/
def logRecord (log : Logger σ α) (record : LogRecord) : LogEntry σ α where
  parent := some log
  record := { record with logger := log.name }
  emit := true

/-- `Log(LogLevel, message, location)`. -/
def log (log : Logger σ α) (level : LogLevel) (m : Message) : LogEntry σ α :=
  if log.enabled level then log.logRecord (LogRecord.now m.time level m.text m.location)
  else { parent := none, record := LogRecord.default, emit := false }

/-- The body the methods named after a level share. -/
def logAt (level : LogLevel) (log : Logger σ α) (m : Message) : LogEntry σ α :=
  log.logRecord (LogRecord.now m.time level m.text m.location)

def trace : Logger σ α → Message → LogEntry σ α := logAt .trace
def debug : Logger σ α → Message → LogEntry σ α := logAt .debug
def info : Logger σ α → Message → LogEntry σ α := logAt .info
def warn : Logger σ α → Message → LogEntry σ α := logAt .warning
def error : Logger σ α → Message → LogEntry σ α := logAt .error
def fatal : Logger σ α → Message → LogEntry σ α := logAt .fatal

end Logger

inductive Method where
  | log (level : LogLevel)
  | trace
  | debug
  | info
  | warn
  | error
  | fatal
  deriving DecidableEq

def Method.level : Method → LogLevel
  | .log level => level
  | .trace => .trace
  | .debug => .debug
  | .info => .info
  | .warn => .warning
  | .error => .error
  | .fatal => .fatal

/-- A log call followed by a chain of `With` calls. -/
structure Call where
  method : Method
  message : Message
  attributes : List (Bytes × AttributeValue)

namespace Logger

def entry (log : Logger σ α) (call : Call) : LogEntry σ α :=
  match call.method with
  | .log level => log.log level call.message
  | .trace => log.trace call.message
  | .debug => log.debug call.message
  | .info => log.info call.message
  | .warn => log.warn call.message
  | .error => log.error call.message
  | .fatal => log.fatal call.message

/-- The sink calls of one log statement, from the call to the end of its entry. -/
def call (log : Logger σ α) (c : Call) : List (SinkCall σ α) :=
  (c.attributes.foldl (fun entry a => entry.withAttribute a.1 a.2) (log.entry c)).destroy

/-- The sink calls after a sequence of log statements, on top of those made before. -/
def run (log : Logger σ α) (made : List (SinkCall σ α)) (calls : List Call) :
    List (SinkCall σ α) :=
  calls.foldl (fun made c => made ++ log.call c) made

/-- What a log statement owes the sinks: its record once to every synchronous and then
every asynchronous sink when its level is enabled, and nothing otherwise. -/
def Filtered (log : Logger σ α) (c : Call) (calls : List (SinkCall σ α)) : Prop :=
  ∃ record : LogRecord,
    record.logger = log.name ∧ record.level = c.method.level ∧
    record.message = c.message.text ∧ record.location = c.message.location ∧
    record.timestamp = c.message.time ∧
    (∀ key, record.fields.lookup key = c.attributes.lookup key) ∧
    calls = if log.enabled c.method.level then
        log.sinks.map (fun sink => .emit sink record) ++
          log.asyncSinks.map (fun sink => .enqueue sink record)
      else []

/-- The gate is applied by `Log(level, message)` only. -/
def Gated (log : Logger σ α) (c : Call) : Prop :=
  c.method = .log c.method.level ∨ log.enabled c.method.level = true ∨
    log.sinks = [] ∧ log.asyncSinks = []

end Logger

/-- The record a statement builds, whether or not an entry carries it. -/
def Call.record (c : Call) (logger : Bytes) : LogRecord :=
  c.attributes.foldl (fun record a => record.withField a.1 a.2)
    { LogRecord.now c.message.time c.method.level c.message.text c.message.location with
      logger := logger }

/-- A chain of `With` adds to the fields and changes nothing else of the record. -/
theorem foldl_withField (attributes : List (Bytes × AttributeValue)) (record : LogRecord) :
    ∃ fields : Fields,
      attributes.foldl (fun record a => record.withField a.1 a.2) record =
        { record with fields := fields } ∧
      ∀ key, fields.lookup key = (record.fields.lookup key).or (attributes.lookup key) := by
  induction attributes generalizing record with
  | nil => exact ⟨record.fields, rfl, by simp⟩
  | cons a attributes ih =>
      obtain ⟨name, value⟩ := a
      obtain ⟨fields, same, lookup⟩ := ih (record.withField name value)
      refine ⟨fields, same, ?_⟩
      intro key
      rw [lookup, LogRecord.withField, Fields.lookup_emplace, Option.or_assoc,
        List.lookup_cons]
      by_cases hk : key = name
      · simp [hk]
      · simp [hk, beq_eq_false_iff_ne.mpr hk]

/-- The record of a statement carries the first value attached for each key. -/
theorem Call.record_spec (c : Call) (logger : Bytes) :
    (c.record logger).logger = logger ∧ (c.record logger).level = c.method.level ∧
    (c.record logger).message = c.message.text ∧
    (c.record logger).location = c.message.location ∧
    (c.record logger).timestamp = c.message.time ∧
    ∀ key, (c.record logger).fields.lookup key = c.attributes.lookup key := by
  obtain ⟨fields, same, lookup⟩ := foldl_withField c.attributes
    { LogRecord.now c.message.time c.method.level c.message.text c.message.location with
      logger := logger }
  rw [record, same]
  exact ⟨rfl, rfl, rfl, rfl, rfl, fun key => by simp [lookup, LogRecord.now]⟩

theorem foldl_withAttribute (attributes : List (Bytes × AttributeValue))
    (entry : LogEntry σ α) :
    attributes.foldl (fun entry a => entry.withAttribute a.1 a.2) entry =
      { entry with
        record := attributes.foldl (fun record a => record.withField a.1 a.2) entry.record } := by
  induction attributes generalizing entry with
  | nil => rfl
  | cons a attributes ih => exact ih (entry.withAttribute a.1 a.2)

namespace Logger
variable (log : Logger σ α) (c : Call)

/-- The sink calls that hand `record` to every sink. -/
def deliver (record : LogRecord) : List (SinkCall σ α) :=
  log.sinks.map (fun sink => .emit sink record) ++
    log.asyncSinks.map (fun sink => .enqueue sink record)

theorem deliver_eq_nil (record : LogRecord) :
    log.deliver record = [] ↔ log.sinks = [] ∧ log.asyncSinks = [] := by
  simp [deliver]

/-- A statement reaches every sink, unless it is a `Log(level, message)` call for a level
that is not enabled. -/
theorem call_eq : log.call c =
    if c.method = .log c.method.level ∧ log.enabled c.method.level = false then []
    else log.deliver (c.record log.name) := by
  simp only [call, foldl_withAttribute]
  cases hm : c.method with
  | log level =>
      cases he : log.enabled level with
      | true => simp [entry, hm, Logger.log, he, Method.level, LogEntry.destroy, deliver,
          Call.record, logRecord]
      | false => simp [entry, hm, Logger.log, he, Method.level, LogEntry.destroy]
  | trace | debug | info | warn | error | fatal =>
      simp [entry, hm, trace, debug, info, warn, error, fatal, logAt, Method.level,
        LogEntry.destroy, deliver, Call.record, logRecord]

/-- A statement obeys the level filter exactly when it goes through the gate, its level is
enabled, or there is no sink to notice. -/
theorem filtered_call_iff : log.Filtered c (log.call c) ↔ log.Gated c := by
  obtain ⟨h1, h2, h3, h4, h5, h6⟩ := c.record_spec log.name
  constructor
  · intro filtered
    obtain ⟨record, _, _, _, _, _, _, calls⟩ := filtered
    by_cases he : log.enabled c.method.level = true
    · exact Or.inr (Or.inl he)
    · rw [if_neg he, call_eq] at calls
      split at calls
      · next gated => exact Or.inl gated.1
      · exact Or.inr (Or.inr ((log.deliver_eq_nil _).mp calls))
  · intro gated
    refine ⟨c.record log.name, h1, h2, h3, h4, h5, h6, ?_⟩
    rw [call_eq]
    cases he : log.enabled c.method.level with
    | true => simp [deliver]
    | false =>
        obtain gate | on | none := gated
        · rw [if_pos ⟨gate, rfl⟩, if_neg (by simp)]
        · rw [he] at on
          contradiction
        · rw [(log.deliver_eq_nil _).mpr none, if_neg (by simp : ¬ false = true), ite_self]

theorem run_append (made : List (SinkCall σ α)) (before : List Call) :
    log.run made (before ++ [c]) = log.run made before ++ log.call c := by
  simp [run]

/-- Over a whole sequence of log statements: each obeys the level filter, with the sink
calls it adds to those made before, exactly when each passes through the gate, logs at an
enabled level, or there are no sinks. -/
theorem run_filtered_iff (made : List (SinkCall σ α)) (calls : List Call) :
    (∀ before c after, calls = before ++ c :: after →
      ∃ added, log.run made (before ++ [c]) = log.run made before ++ added ∧
        log.Filtered c added) ↔
    ∀ c ∈ calls, log.Gated c := by
  constructor
  · intro filtered c hc
    obtain ⟨before, after, split⟩ := List.append_of_mem hc
    obtain ⟨added, grown, h⟩ := filtered before c after split
    rw [run_append, List.append_cancel_left_eq] at grown
    exact (log.filtered_call_iff c).mp (grown ▸ h)
  · intro gated before c after split
    refine ⟨log.call c, log.run_append c made before, (log.filtered_call_iff c).mpr ?_⟩
    exact gated c (by simp [split])

def quietInfo : Call where
  method := .info
  message := { text := str "hi", location := LogRecord.default.location, time := 0 }
  attributes := []

theorem run_not_always_filtered :
    ¬ ∀ (log : Logger Nat Nat) (made : List (SinkCall Nat Nat)) (calls : List Call)
      (before : List Call) (c : Call) (after : List Call), calls = before ++ c :: after →
      ∃ added, log.run made (before ++ [c]) = log.run made before ++ added ∧
        log.Filtered c added := by
  intro always
  obtain ⟨added, grown, filtered⟩ :=
    always { level := .fatal, name := str "main", sinks := [0], asyncSinks := [] } [] [quietInfo]
      [] quietInfo [] rfl
  rw [run_append, List.append_cancel_left_eq] at grown
  have gated := (filtered_call_iff _ _).mp (grown ▸ filtered)
  simp [Gated, quietInfo, enabled, Method.level, LogLevel.toNat] at gated

end Logger
end Logrin
