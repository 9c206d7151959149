import Logrin.Console
import Logrin.Library.Handles

/-!
Switching the stream of a `Console` sink, in a process where nothing else touches the two
standard handles.
-/

namespace Logrin
open Logrin.Library

namespace Console
variable {τ : Type}

inductive Stream where
  | stdout
  | stderr
  deriving DecidableEq

namespace Stream

/-- `STDOUT_HANDLE` or `STDERR_HANDLE`. -/
def handle : Stream → Int32
  | stdout => 1
  | stderr => 2

def other : Stream → Stream
  | stdout => stderr
  | stderr => stdout

end Stream

/-- The constructors; the stream of the one without a `Stream` is `Stdout`. -/
def new (stream : Stream) (formatter : Option Format) : Console where
  formatter := formatter
  descriptor := some stream.handle

/-- `Console::WithStream`, over what `FileDescriptor::Close` does to the handles. -/
def withStream (close : τ → Int32 → τ) (self : Console) (state : τ) (stream : Stream) :
    Console × τ :=
  let switched := { self with descriptor := some stream.handle }
  match self.descriptor with
  | some fd =>
      if fd = Stream.stdout.handle ∧ stream = .stdout then (self, state)
      else if fd = Stream.stderr.handle ∧ stream = .stderr then (self, state)
      else (switched, close state fd)
  | none => (switched, state)

abbrev Descriptors := Handles Int32 UInt8

/-- A process in which only a write to a closed handle fails, with the text `fault`. -/
def posix (fault : Bytes) : Os Descriptors where
  write state handle bytes :=
    match state.write handle bytes with
    | (state, true) => (state, none)
    | (state, false) => (state, some fault)
  cerr state bytes := (state.write Stream.stderr.handle bytes).1

inductive Call where
  | withStream (stream : Stream)
  | emit (record : LogRecord)

structure Process where
  console : Console
  handles : Descriptors

/-- One call; an exception of the formatter leaves `Emit` before it writes. -/
def Process.call (fault : Bytes) (s : Process) : Call → Process
  | .withStream stream =>
      let (console, handles) := s.console.withStream Handles.close s.handles stream
      ⟨console, handles⟩
  | .emit record =>
      match s.console.emit (posix fault) s.handles record with
      | .ok handles => { s with handles := handles }
      | .error _ => s

/-- The stream named last, and how often a call named another one. -/
structure Names where
  named : Stream
  switches : Nat

def Names.next (names : Names) : Call → Names
  | .withStream stream =>
      ⟨stream, if stream = names.named then names.switches else names.switches + 1⟩
  | .emit _ => names

/-- A process with a new sink, after some calls. -/
def after (fault : Bytes) (format : Format) (start : Stream) (handles : Descriptors)
    (calls : List Call) : Process :=
  calls.foldl (Process.call fault) ⟨.new start (some format), handles⟩

def names (start : Stream) (calls : List Call) : Names :=
  calls.foldl Names.next ⟨start, 0⟩

def BothOpen (handles : Descriptors) : Prop :=
  ∀ stream : Stream, handles.opened stream.handle = true

/-- `Emit` finds the handle of the stream open, and writes there the formatted record and a
newline, and nothing elsewhere. -/
def WritesLine (fault : Bytes) (format : Format) (s : Process) (stream : Stream)
    (record : LogRecord) : Prop :=
  s.handles.opened stream.handle = true ∧
    ∀ text, format record = .ok text → s.call fault (.emit record) =
      { s with handles := s.handles.append stream.handle (text ++ str "\n") }

/-- The sink has its formatter and the descriptor of the stream named last. That stream's handle
is open up to the first switch back, the other one's up to the first switch. -/
structure Follows (format : Format) (s : Process) (names : Names) : Prop where
  formatter : s.console.formatter = some format
  descriptor : s.console.descriptor = some names.named.handle
  named : s.handles.opened names.named.handle = decide (names.switches < 2)
  other : s.handles.opened names.named.other.handle = decide (names.switches = 0)

section Runs
variable {fault : Bytes} {format : Format} {s : Process} {track : Names}

theorem Stream.other_of_ne {stream named : Stream} (h : stream ≠ named) : named = stream.other := by
  cases stream <;> cases named <;> first | rfl | exact absurd rfl h

theorem Stream.other_other (stream : Stream) : stream.other.other = stream := by
  cases stream <;> rfl

theorem Stream.handle_other_ne (stream : Stream) : stream.other.handle ≠ stream.handle := by
  cases stream <;> decide

/-- `WithStream` to the stream of the descriptor changes nothing. -/
theorem withStream_same {self : Console} {stream : Stream} (close : τ → Int32 → τ) (state : τ)
    (h : self.descriptor = some stream.handle) :
    self.withStream close state stream = (self, state) := by
  cases stream <;> simp [withStream, h]

/-- `WithStream` to the other stream closes the handle it leaves. -/
theorem withStream_other {self : Console} {stream : Stream} (close : τ → Int32 → τ) (state : τ)
    (h : self.descriptor = some stream.other.handle) :
    self.withStream close state stream =
      ({ self with descriptor := some stream.handle }, close state stream.other.handle) := by
  cases stream <;> simp [withStream, h, Stream.other, Stream.handle]

section Write
variable {handles : Descriptors} {handle : Int32}

theorem posix_write_of_open (h : handles.opened handle = true) (bytes : Bytes) :
    (posix fault).write handles handle bytes = (handles.append handle bytes, none) := by
  simp only [posix, Handles.write_of_open h]

theorem posix_write_of_closed (h : handles.opened handle = false) (bytes : Bytes) :
    (posix fault).write handles handle bytes = (handles, some fault) := by
  simp only [posix, Handles.write_of_closed h]

/-- `Emit` opens and closes nothing. -/
theorem emit_opened {self : Console} {handles' : Descriptors} {record : LogRecord}
    (h : self.emit (posix fault) handles record = .ok handles') :
    handles'.opened = handles.opened := by
  simp only [emit] at h
  split at h
  · next handle _ _ =>
      obtain ⟨text, _, h⟩ := bind_eq_ok.mp h
      by_cases opened : handles.opened handle = true
      · have again : (handles.append handle text).opened handle = true := opened
        rw [posix_write_of_open opened] at h
        cases h
        rw [posix_write_of_open again]
        rfl
      · rw [posix_write_of_closed (eq_false_of_ne_true opened)] at h
        cases h
        exact Handles.write_opened _ _
  · cases h
    rfl

end Write

/-- Whatever `Emit` does to the handles, it leaves the sink as it was. -/
theorem call_emit_frame (fault : Bytes) (s : Process) (record : LogRecord) :
    (s.call fault (.emit record)).console = s.console ∧
      (s.call fault (.emit record)).handles.opened = s.handles.opened := by
  simp only [Process.call]
  cases h : s.console.emit (posix fault) s.handles record with
  | error _ => exact ⟨rfl, rfl⟩
  | ok handles => exact ⟨rfl, emit_opened h⟩

theorem emit_of_open {handle : Int32} {record : LogRecord} {text : Bytes}
    (formats : s.console.formatter = some format) (valid : s.console.descriptor = some handle)
    (opened : s.handles.opened handle = true) (formatted : format record = .ok text) :
    s.call fault (.emit record) =
      { s with handles := s.handles.append handle (text ++ str "\n") } := by
  have again : (s.handles.append handle text).opened handle = true := opened
  simp only [Process.call, emit, formats, valid, formatted, ok_bind,
    posix_write_of_open opened, posix_write_of_open again, Handles.append_append]

/-- With its handle and `stderr` closed, a record is lost without a trace. -/
theorem emit_of_closed {handle : Int32} (record : LogRecord)
    (valid : s.console.descriptor = some handle) (closed : s.handles.opened handle = false)
    (silent : s.handles.opened Stream.stderr.handle = false) :
    s.call fault (.emit record) = s := by
  simp only [Process.call, emit, valid]
  cases s.console.formatter with
  | none => rfl
  | some format =>
      simp only
      cases format record with
      | error _ => rfl
      | ok text =>
          simp only [ok_bind, posix_write_of_closed closed]
          simp only [posix, Handles.write_of_closed silent]

theorem Follows.start {handles : Descriptors} (opened : BothOpen handles) (format : Format)
    (start : Stream) : Follows format ⟨.new start (some format), handles⟩ ⟨start, 0⟩ where
  formatter := rfl
  descriptor := rfl
  named := opened start
  other := opened start.other

theorem Follows.call (follows : Follows format s track) (call : Call) :
    Follows format (s.call fault call) (track.next call) := by
  cases call with
  | emit record =>
      obtain ⟨console, opened⟩ := call_emit_frame fault s record
      exact {
        formatter := console ▸ follows.formatter
        descriptor := console ▸ follows.descriptor
        named := opened ▸ follows.named
        other := opened ▸ follows.other }
  | withStream stream =>
      by_cases same : stream = track.named
      · subst same
        have stays := withStream_same Handles.close s.handles follows.descriptor
        simp only [Process.call, Names.next, stays, if_true]
        exact follows
      · have left := Stream.other_of_ne same
        have leaves := withStream_other Handles.close s.handles (left ▸ follows.descriptor)
        simp only [Process.call, Names.next, leaves, if_neg same]
        have ahead := follows.other
        rw [left, Stream.other_other] at ahead
        exact {
          formatter := follows.formatter
          descriptor := rfl
          named := by
            simp only [Handles.close_opened_ne _ stream.handle_other_ne.symm, ahead]
            exact decide_eq_decide.mpr (by omega)
          other := by simp }

theorem Follows.calls (follows : Follows format s track) (calls : List Call) :
    Follows format (calls.foldl (Process.call fault) s) (calls.foldl Names.next track) := by
  induction calls generalizing s track with
  | nil => exact follows
  | cons call calls ih => exact ih (follows.call call)

/-- An `Emit` writes its line to the stream named last, whose handle is open, exactly when at
most one call before it has named another stream than the one in use; after that it writes
nothing at all. -/
theorem emits_written_iff {handles : Descriptors} (opened : BothOpen handles) (fault : Bytes)
    (format : Format) (start : Stream) (calls : List Call) (record : LogRecord) :
    (WritesLine fault format (after fault format start handles calls) (names start calls).named
        record ↔ (names start calls).switches < 2) ∧
      (2 ≤ (names start calls).switches →
        (after fault format start handles calls).call fault (.emit record) =
          after fault format start handles calls) := by
  have follows : Follows format (after fault format start handles calls) (names start calls) :=
    (Follows.start opened format start).calls calls
  refine ⟨⟨?_, ?_⟩, ?_⟩
  · intro written
    exact of_decide_eq_true (follows.named.symm.trans written.1)
  · intro few
    have here := follows.named.trans (decide_eq_true few)
    exact ⟨here, fun _ => emit_of_open follows.formatter follows.descriptor here⟩
  · intro many
    have here := follows.named.trans (decide_eq_false (Nat.not_lt.mpr many))
    have there := follows.other.trans (decide_eq_false (by omega))
    apply emit_of_closed record follows.descriptor here
    cases same : (names start calls).named with
    | stdout =>
        rw [same] at there
        exact there
    | stderr =>
        rw [same] at here
        exact here

def freshHandles : Descriptors where
  opened := fun _ => true
  written := fun _ => []

theorem freshHandles_open : BothOpen freshHandles := fun _ => rfl

theorem emits_written_sample :
    WritesLine [] (fun _ => .ok (str "hi"))
      (after [] (fun _ => .ok (str "hi")) .stdout freshHandles [.withStream .stderr]) .stderr
      LogRecord.default :=
  (emits_written_iff freshHandles_open [] (fun _ => .ok (str "hi")) .stdout [.withStream .stderr]
    LogRecord.default).1.mpr (by decide)

/-- Back and forth once: the line is not written, nor is the handle open. -/
theorem switching_back_loses_lines :
    ¬ ∀ (handles : Descriptors) (fault : Bytes) (format : Format) (start : Stream)
      (calls : List Call) (record : LogRecord), BothOpen handles →
      WritesLine fault format (after fault format start handles calls) (names start calls).named
        record := by
  intro always
  have written := always freshHandles [] (fun _ => .ok (str "hi")) .stdout
    [.withStream .stderr, .withStream .stdout] LogRecord.default freshHandles_open
  exact absurd written.1 (by decide)

end Runs
end Console
end Logrin
