import Logrin.Json
import Logrin.Library.Loop
import Logrin.Logger

/-!
The `Console` sink, and when the destructor of an entry survives one that writes JSON. The
handles of the process are a parameter.
-/

namespace Logrin
open Logrin.Library
open Logrin.Nlohmann
open Logrin.Pattern (Env)

variable {τ α : Type}

/-- What a process does with its handles, over a state of theirs. -/
structure Os (τ : Type) where
  /-- `FileDescriptor::Write`: the state after it, and the text of its error if it fails -/
  write : τ → Int32 → Bytes → τ × Option Bytes
  /-- output on `std::cerr` -/
  cerr : τ → Bytes → τ

/-- A formatter's `Format`, or the exception it throws. -/
abbrev Format := LogRecord → Except TypeError Bytes

structure Console where
  formatter : Option Format
  /-- the descriptor's handle, if it is valid -/
  descriptor : Option Int32

namespace Console

def writeError (record : LogRecord) (error : Bytes) : Bytes :=
  str "[logrin@fatal" ++
    (if record.location.file.isEmpty then [] else str " " ++ record.location.file) ++
    (if 0 < record.location.line then str ":" ++ decimal record.location.line else []) ++
    (if 0 < record.location.column then str ":" ++ decimal record.location.column else []) ++
    str "]: received fatal error when writing to stream: " ++ error ++ str "\n"

def emit (os : Os τ) (self : Console) (state : τ) (record : LogRecord) : Except TypeError τ :=
  match self.formatter, self.descriptor with
  | some format, some handle => do
      let text ← format record
      match os.write state handle text with
      | (state, some error) => .ok (os.cerr state (writeError record error))
      | (state, none) => .ok (os.write state handle (str "\n")).1
  | _, _ => .ok state

def WritesJson (dump : Int → UInt8 → Bool → Json → Except TypeError Bytes) (env : Env)
    (self : Console) : Prop :=
  ∃ (config : Formatter.Json) (handle : Int32),
    self.formatter = some (config.format dump env) ∧ self.descriptor = some handle

end Console

/-- One sink call of the destructor; `Enqueue` does not throw. -/
def SinkCall.perform (os : Os τ) (enqueue : α → τ → LogRecord → τ) (state : τ) :
    SinkCall Console α → Except TypeError τ
  | .emit sink record => sink.emit os state record
  | .enqueue sink record => .ok (enqueue sink state record)

/-- `~LogEntry` with what its sinks do. The destructor is `noexcept`: an exception that leaves
it ends the process. -/
def LogEntry.destroyOn (os : Os τ) (enqueue : α → τ → LogRecord → τ) (entry : LogEntry Console α)
    (state : τ) : Except TypeError τ :=
  entry.destroy.foldlM (SinkCall.perform os enqueue) state

section Json
variable {dump : Int → UInt8 → Bool → Json → Except TypeError Bytes} {env : Env} {os : Os τ}
  {enqueue : α → τ → LogRecord → τ} {sink : Console} {record : LogRecord}

/-- The sink passes the formatter's exception on, and raises none of its own. -/
theorem emit_ok_iff {format : Format} {handle : Int32} (formats : sink.formatter = some format)
    (valid : sink.descriptor = some handle) (state : τ) :
    (∃ state', sink.emit os state record = .ok state') ↔ ∃ text, format record = .ok text := by
  simp only [Console.emit, formats, valid]
  cases format record with
  | error e => simp [bind, Except.bind]
  | ok text =>
      simp only [ok_bind, Except.ok.injEq, exists_eq', iff_true]
      split <;> exact ⟨_, rfl⟩

/-- A sink call of an entry goes well when the sink writes JSON and the record's texts are well
formed, or when it only enqueues the record. -/
theorem perform_ok_iff (strict : StrictDump dump) (clock : AsciiClock env)
    {call : SinkCall Console α} (state : τ)
    (json : ∀ sink record, call = .emit sink record → sink.WritesJson dump env) :
    (∃ state', call.perform os enqueue state = .ok state') ↔
      ∀ sink record, call = .emit sink record → record.Utf8 := by
  cases call with
  | emit sink record =>
      obtain ⟨config, handle, formats, valid⟩ := json sink record rfl
      rw [SinkCall.perform, emit_ok_iff formats valid, config.format_ok_iff strict clock]
      constructor
      · intro utf8 _ _ same
        cases same
        exact utf8
      · exact fun h => h sink record rfl
  | enqueue sink record => simp [SinkCall.perform]

theorem mem_destroy {log : Logger Console α} {call : SinkCall Console α} :
    call ∈ (LogEntry.mk (some log) record true).destroy ↔
      (∃ sink ∈ log.sinks, call = .emit sink record) ∨
        ∃ sink ∈ log.asyncSinks, call = .enqueue sink record := by
  simp [LogEntry.destroy, eq_comm]

/-- The destructor of an entry whose sinks write JSON survives exactly the records whose texts
are well formed. -/
theorem destroyOn_ok_iff (strict : StrictDump dump) (clock : AsciiClock env)
    (log : Logger Console α) (json : ∀ sink ∈ log.sinks, sink.WritesJson dump env)
    (used : log.sinks ≠ []) (state : τ) :
    (∃ state', (LogEntry.mk (some log) record true).destroyOn os enqueue state = .ok state') ↔
      record.Utf8 := by
  have writes : ∀ call ∈ (LogEntry.mk (some log) record true).destroy, ∀ sink record',
      call = .emit sink record' → sink.WritesJson dump env ∧ record' = record := by
    intro call member sink record' same
    obtain ⟨sink', inside, rfl⟩ | ⟨sink', _, rfl⟩ := mem_destroy.mp member
    · cases same
      exact ⟨json sink inside, rfl⟩
    · cases same
  have steps : ∀ call ∈ (LogEntry.mk (some log) record true).destroy, ∀ state,
      (∃ state', call.perform os enqueue state = .ok state') ↔
        ∀ sink record', call = .emit sink record' → record'.Utf8 := by
    intro call member state
    apply perform_ok_iff strict clock
    exact fun sink record' same => (writes call member sink record' same).1
  rw [LogEntry.destroyOn, foldlM_ok_iff steps]
  constructor
  · intro h
    obtain ⟨sink, inside⟩ := List.exists_mem_of_ne_nil _ used
    exact h _ (mem_destroy.mpr (.inl ⟨sink, inside, rfl⟩)) sink record rfl
  · intro utf8 call member sink record' same
    rw [(writes call member sink record' same).2]
    exact utf8

/-- JSON can be written, and logged to a console, for exactly the records whose texts are well
formed. -/
theorem json_logging_ok_iff (strict : StrictDump dump) (clock : AsciiClock env)
    (record : LogRecord) :
    (∀ self : Formatter.Json, (∃ out, self.format dump env record = .ok out) ↔ record.Utf8) ∧
    ∀ (os : Os τ) (enqueue : α → τ → LogRecord → τ) (log : Logger Console α) (state : τ),
      log.sinks ≠ [] → (∀ sink ∈ log.sinks, sink.WritesJson dump env) →
      ((∃ state', (LogEntry.mk (some log) record true).destroyOn os enqueue state = .ok state') ↔
        record.Utf8) := by
  constructor
  · exact fun self => self.format_ok_iff strict clock record
  · exact fun os enqueue log state used json => destroyOn_ok_iff strict clock log json used state

def helloRecord : LogRecord :=
  { LogRecord.default with message := str "hi" }.withField (str "k") (.string (str "v"))

/-- A `dump` that throws as the real one does, and writes the greeting on one line. -/
def dumpHello (_ : Int) (_ : UInt8) (_ : Bool) (tree : Json) : Except TypeError Bytes :=
  if ∀ text ∈ tree.texts, IsUtf8 text then
    .ok (str ("\x7b\"@timestamp\":\"1970-01-01T00:00:00Z\",\"attributes\":\x7b\"k\":\"v\"\x7d," ++
      "\"log\":\x7b\"level\":\"trace\",\"logger\":\"\"\x7d,\"message\":\"hi\"\x7d"))
  else .error ⟨str "invalid UTF-8 byte"⟩

def epochClock : Env :=
  { (default : Env) with expandTime := fun _ _ => str "1970-01-01T00:00:00Z" }

theorem dumpHello_strict : StrictDump dumpHello := by
  intro indent pad ascii tree
  rw [dumpHello]
  split
  · next valid => exact ⟨fun _ => valid, fun _ => ⟨_, rfl⟩⟩
  · next invalid =>
      constructor
      · intro h
        obtain ⟨_, h⟩ := h
        cases h
      · exact fun valid => absurd valid invalid

theorem epochClock_ascii : AsciiClock epochClock := by
  have ascii : ∀ c ∈ str "1970-01-01T00:00:00Z", c < 128 := by decide +kernel
  exact fun _ => ascii

theorem helloRecord_utf8 : helloRecord.Utf8 where
  message := isUtf8_str "hi"
  logger := isUtf8_nil
  file := isUtf8_nil
  function := isUtf8_nil
  name := by
    intro field member _
    obtain rfl := List.mem_singleton.mp member
    exact isUtf8_str "k"
  value := by
    intro field member text same
    obtain rfl := List.mem_singleton.mp member
    cases same
    exact isUtf8_str "v"

def epochConsole : Console where
  formatter := some ((Formatter.Json.mk false 4).format dumpHello epochClock)
  descriptor := some 1

theorem json_logging_ok_sample :
    (∃ out, (Formatter.Json.mk false 4).format dumpHello epochClock helloRecord = .ok out) ∧
    ∃ state, (LogEntry.mk (some ⟨.trace, [], [epochConsole], []⟩) helloRecord true).destroyOn
      ⟨fun written _ bytes => (written ++ bytes, none), fun written _ => written⟩
      (fun (_ : Unit) state _ => state) [] = .ok state := by
  have both := @json_logging_ok_iff Bytes Unit dumpHello epochClock dumpHello_strict
    epochClock_ascii helloRecord
  refine ⟨(both.1 _).mpr helloRecord_utf8, (both.2 _ _ _ _ ?_ ?_).mpr helloRecord_utf8⟩
  · exact List.cons_ne_nil _ _
  · intro sink member
    rw [List.mem_singleton.mp member]
    exact ⟨_, 1, rfl, rfl⟩

/-- A record whose message is the byte 255. -/
def malformedMessage : LogRecord := { LogRecord.default with message := [255] }

theorem json_logging_can_throw :
    ¬ ∀ (dump : Int → UInt8 → Bool → Json → Except TypeError Bytes) (env : Env),
      StrictDump dump → AsciiClock env →
      ∀ (self : Formatter.Json) (record : LogRecord),
        ∃ out, self.format dump env record = .ok out := by
  intro always
  have format := always dumpHello epochClock dumpHello_strict epochClock_ascii { }
    malformedMessage
  have utf8 := (Formatter.Json.format_ok_iff dumpHello_strict epochClock_ascii _ _).mp format
  exact absurd utf8.message (by decide +kernel)

end Json
end Logrin
