import Logrin.ConsoleStreams
import Logrin.Library.Monitor

/-!
Many threads that emit records to `Console` sinks. What `Emit` does under the sink's mutex it does
in pieces: the text, then the newline, or the operands of `<<` on `std::cerr` if the text could not
be written. The text depends on the thread as well, since `%T` shows the thread that formats.
-/

namespace Logrin
open Logrin.Library

namespace Console
variable {ι τ : Type}

/-- A sink that threads share, with what its formatter does on each of them. -/
structure Shared (ι : Type) where
  formatter : Option (ι → Format)
  descriptor : Option Int32

def Shared.on (self : Shared ι) (i : ι) : Console where
  formatter := self.formatter.map (· i)
  descriptor := self.descriptor

inductive Point where
  | text (record : LogRecord) (text : Bytes)
  | newline
  | report (operand : Bytes) (operands : List Bytes)

/-- The operands after the first in the message about a write that failed. -/
def errorOperands (record : LogRecord) (error : Bytes) : List Bytes :=
  (if record.location.file.isEmpty then [] else [str " ", record.location.file]) ++
    (if 0 < record.location.line then [str ":", decimal record.location.line] else []) ++
    (if 0 < record.location.column then [str ":", decimal record.location.column] else []) ++
    [str "]: received fatal error when writing to stream: ", error, str "\n"]

/-- `Emit` of a sink whose stream is not switched. The record is formatted before the mutex is
taken; an exception there ends the process, since the destructor it is called from is `noexcept`. -/
def monitor (os : Os τ) (self : Shared ι) : Monitor ι LogRecord Point τ where
  enter i record :=
    match self.formatter, self.descriptor with
    | some format, some _ =>
        match format i record with
        | .ok text => .locks (.text record text)
        | .error _ => .ends
    | _, _ => .returns
  piece point state :=
    match self.descriptor, point with
    | none, _ => (state, none)
    | some handle, .text record text =>
        match os.write state handle text with
        | (state, some error) =>
            (state, some (.report (str "[logrin@fatal") (errorOperands record error)))
        | (state, none) => (state, some .newline)
    | some handle, .newline => ((os.write state handle (str "\n")).1, none)
    | some _, .report operand [] => (os.cerr state operand, none)
    | some _, .report operand (next :: operands) =>
        (os.cerr state operand, some (.report next operands))

theorem errorOperands_flatten (record : LogRecord) (error : Bytes) :
    str "[logrin@fatal" ++ (errorOperands record error).flatten = writeError record error := by
  simp only [errorOperands, writeError, List.flatten_append, apply_ite List.flatten,
    List.flatten_cons, List.flatten_nil, List.append_nil, List.append_assoc]

section Alone
variable {fault : Bytes} {self : Shared ι} {format : ι → Format} {handle : Int32}

theorem posix_cerr_append (state : Descriptors) (bytes more : Bytes) :
    (posix fault).cerr ((posix fault).cerr state bytes) more =
      (posix fault).cerr state (bytes ++ more) := by
  simp only [posix]
  cases opened : state.opened Stream.stderr.handle with
  | true =>
      have again : (state.append Stream.stderr.handle bytes).opened Stream.stderr.handle = true :=
        opened
      simp only [Handles.write_of_open opened, Handles.write_of_open again, Handles.append_append]
  | false => simp only [Handles.write_of_closed opened]

variable (fault) in
/-- The operands of `<<` one after the other leave what the whole message does. -/
theorem runs_report (valid : self.descriptor = some handle) (operand : Bytes)
    (operands : List Bytes) (state : Descriptors) :
    (monitor (posix fault) self).Runs (.report operand operands) state
      ((posix fault).cerr state (operand ++ operands.flatten)) := by
  induction operands generalizing operand state with
  | nil =>
      apply Monitor.Runs.last
      simp [monitor, valid]
  | cons next operands ih =>
      rw [List.flatten_cons, ← posix_cerr_append]
      apply Monitor.Runs.more _ (ih next _)
      simp only [monitor, valid]

variable (fault) in
/-- `Emit` run alone leaves what the model of one call says. -/
theorem runs_emit {i : ι} {record : LogRecord} {text : Bytes}
    (formats : self.formatter = some format) (valid : self.descriptor = some handle)
    (formatted : format i record = .ok text) (state : Descriptors) :
    ∃ state', (self.on i).emit (posix fault) state record = .ok state' ∧
      (monitor (posix fault) self).Runs (.text record text) state state' := by
  simp only [emit, Shared.on, formats, valid, formatted, Option.map_some, ok_bind]
  cases written : (posix fault).write state handle text with
  | mk after failed =>
      cases failed with
      | none =>
          have writes : (monitor (posix fault) self).piece (.text record text) state =
              (after, some .newline) := by simp only [monitor, valid, written]
          refine ⟨_, rfl, .more writes (.last ?_)⟩
          simp only [monitor, valid]
      | some error =>
          have report := runs_report fault valid (str "[logrin@fatal")
            (errorOperands record error) after
          rw [errorOperands_flatten] at report
          refine ⟨_, rfl, .more ?_ report⟩
          simp only [monitor, valid, written]

def effect (fault : Bytes) (self : Console) (handles : Descriptors) (record : LogRecord) :
    Descriptors :=
  (Process.call fault ⟨self, handles⟩ (.emit record)).handles

theorem runs_effect {i : ι} {record : LogRecord} {point : Point} (state : Descriptors)
    (enters : (monitor (posix fault) self).enter i record = .locks point) :
    (monitor (posix fault) self).Runs point state ((self.on i).effect fault state record) := by
  simp only [monitor] at enters
  split at enters
  · next format handle formats valid =>
      split at enters
      · next text formatted =>
          obtain ⟨state', emits, runs⟩ := runs_emit fault formats valid formatted state
          cases enters
          simpa only [effect, Process.call, emits] using runs
      · contradiction
  · contradiction

end Alone

abbrev sharing (fault : Bytes) (self : Shared ι) : Unit → Monitor ι LogRecord Point Descriptors :=
  fun _ => monitor (posix fault) self

/-- Nothing but the sink's own calls touches its handles. -/
theorem sharing_isolated (fault : Bytes) (self : Shared ι) :
    Threads.Isolated (sharing fault self) () id (monitor (posix fault) self) (fun _ => True)
      (fun _ _ => True) where
  enter _ _ := rfl
  entry _ _ _ _ _ := trivial
  kept _ _ _ _ _ := ⟨trivial, fun _ _ => trivial⟩
  shown _ _ _ _ := rfl
  apart _ _ _ other := absurd rfl other

def emitted (fault : Bytes) (self : Shared ι) (handles : Descriptors)
    (calls : List (ι × LogRecord)) : Descriptors :=
  calls.foldl (fun handles call => (self.on call.1).effect fault handles call.2) handles

/-- However many threads emit to one sink, and whether its stream is open or not: while the sink's
mutex is free the handles are as if the calls had been made one after the other in the order in
which they took it, while it is held they are on the way there, and each thread's calls take it in
the order in which the thread makes them. -/
theorem concurrent_emits_linearize [DecidableEq ι] (fault : Bytes) (self : Shared ι)
    (handles : Descriptors)
    {h : List (Threads.State ι Unit LogRecord Point Descriptors × Threads.Action ι Unit LogRecord)}
    {s : Threads.State ι Unit LogRecord Point Descriptors}
    (run : (Threads.machine (sharing fault self) handles).Execution h s) :
    (s.lock () = none → s.shared = emitted fault self handles (s.order ())) ∧
      (∀ i point, s.lock () = some (i, point) →
        (monitor (posix fault) self).Runs point s.shared
          (emitted fault self handles (s.order ()))) ∧
      ∀ i, Threads.ofThreadOn (sharing fault self) i () s =
        Threads.taking (sharing fault self) i () (Threads.submitted i h) := by
  have linear := Threads.linear_of_reachable (sharing_isolated fault self) trivial ⟨h, run⟩
  obtain ⟨free, held⟩ := linear.foldl fun _ _ state enters => runs_effect state enters
  exact ⟨free, held, fun i => Threads.calls_in_program_order run i ()⟩

def greeting (stream : Stream) : Shared ι where
  formatter := some fun _ _ => .ok (str "hi")
  descriptor := some stream.handle

/-- A thread is preempted between the text and the newline of its record. -/
theorem concurrent_emits_linearize_sample :
    ∃ s : Threads.State Bool Unit LogRecord Point Descriptors,
      s.shared.written 1 = str "hi" ∧
      (monitor (posix []) (greeting .stdout : Shared Bool)).Runs .newline s.shared
        (emitted [] (greeting .stdout) freshHandles (s.order ())) := by
  have run : (Threads.machine (sharing [] (greeting .stdout)) freshHandles).Execution
      (σ := Threads.State Bool Unit LogRecord Point Descriptors) _ _ :=
    .next (a := .piece true) (.next (a := .call true)
      (.next (a := .submit false [((), LogRecord.default)])
        (.next (a := .submit true [((), LogRecord.default)]) .start rfl) rfl) rfl) rfl
  obtain ⟨_, held, _⟩ := concurrent_emits_linearize _ _ _ run
  exact ⟨_, rfl, held true .newline rfl⟩

def line (format : Format) (record : LogRecord) : Bytes :=
  match format record with
  | .ok text => text ++ str "\n"
  | .error _ => []

/-- A sink whose handle is open, as its stream sees it. -/
def stream (os : Os τ) (self : Shared ι) : Monitor ι LogRecord Point Bytes where
  enter := (monitor os self).enter
  piece
    | .text _ text, written => (written ++ text, some .newline)
    | .newline, written => (written ++ str "\n", none)
    | .report _ _, written => (written, none)

def Point.Writes : Point → Prop
  | .text _ _ | .newline => True
  | .report _ _ => False

structure Streams {κ : Type} (sinks : κ → Shared ι) (formats : κ → ι → Format)
    (handles : κ → Int32) (start : Descriptors) : Prop where
  formats : ∀ j, (sinks j).formatter = some (formats j)
  valid : ∀ j, (sinks j).descriptor = some (handles j)
  opened : ∀ j, start.opened (handles j) = true

section Streams
variable {κ : Type} {fault : Bytes} {sinks : κ → Shared ι} {formats : κ → ι → Format}
  {handles : κ → Int32} {start : Descriptors} {k : κ}

variable (fault) in
/-- What a piece of `Emit` does to open handles. -/
theorem piece_of_open {self : Shared ι} {handle : Int32} {state : Descriptors} {point : Point}
    (valid : self.descriptor = some handle) (opened : state.opened handle = true)
    (writes : point.Writes) :
    ∃ bytes, (monitor (posix fault) self).piece point state =
        (state.append handle bytes, ((stream (posix fault) self).piece point []).2) ∧
      ∀ written, (stream (posix fault) self).piece point written =
        (written ++ bytes, ((stream (posix fault) self).piece point []).2) := by
  cases point with
  | text record text =>
      refine ⟨text, ?_, fun _ => rfl⟩
      simp only [monitor, stream, valid, posix_write_of_open opened]
  | newline =>
      refine ⟨str "\n", ?_, fun _ => rfl⟩
      simp only [monitor, stream, valid, posix_write_of_open opened]
  | report => contradiction

theorem writes_next {self : Shared ι} {os : Os τ} {point next : Point} {written : Bytes}
    (h : ((stream os self).piece point written).2 = some next) : next.Writes := by
  cases point <;> cases h
  trivial

theorem writes_entry {self : Shared ι} {os : Os τ} {i : ι} {record : LogRecord} {point : Point}
    (enters : (monitor os self).enter i record = .locks point) : point.Writes := by
  simp only [monitor] at enters
  split at enters
  · split at enters <;> cases enters
    trivial
  · contradiction

variable (fault) in
theorem streams_isolated (streams : Streams sinks formats handles start)
    (apart : ∀ j, j ≠ k → handles j ≠ handles k) :
    Threads.Isolated (fun j => monitor (posix fault) (sinks j)) k
      (fun state => state.written (handles k)) (stream (posix fault) (sinks k))
      (fun state => ∀ j, state.opened (handles j) = true) (fun _ point => point.Writes) where
  enter _ _ := rfl
  entry _ _ _ _ enters := writes_entry enters
  kept j point state good writes := by
    obtain ⟨bytes, piece, _⟩ := piece_of_open fault (streams.valid j) (good j) writes
    rw [piece]
    exact ⟨good, fun _ next => writes_next next⟩
  shown point state good writes := by
    obtain ⟨bytes, piece, shown⟩ :=
      piece_of_open fault (streams.valid k) (good k) writes
    rw [piece, shown, Handles.append_written_self]
  apart j point state other good writes := by
    obtain ⟨bytes, piece, _⟩ := piece_of_open fault (streams.valid j) (good j) writes
    rw [piece, Handles.append_written_ne _ (Ne.symm (apart j other))]

theorem runs_line {self : Shared ι} {os : Os τ} {format : ι → Format} {i : ι}
    {record : LogRecord} {point : Point} (formats : self.formatter = some format)
    (written : Bytes) (enters : (stream os self).enter i record = .locks point) :
    (stream os self).Runs point written (written ++ line (format i) record) := by
  simp only [stream, monitor, formats] at enters
  split at enters
  · next same _ =>
      cases same
      split at enters
      · next text formatted =>
          cases enters
          simp only [line, formatted, ← List.append_assoc]
          exact .more rfl (.last rfl)
      · contradiction
  · contradiction

theorem prefix_of_runs {self : Shared ι} {os : Os τ} {point : Point} {written last : Bytes}
    (h : (stream os self).Runs point written last) : written <+: last := by
  have grows (point : Point) (written : Bytes) :
      written <+: ((stream os self).piece point written).1 := by
    cases point <;> simp [stream]
  induction h with
  | @last p t t' piece =>
      have step := grows p t
      rw [piece] at step
      exact step
  | @more p q t t' t'' piece _ ih =>
      have step := grows p t
      rw [piece] at step
      exact step.trans ih

def lines (format : ι → Format) (records : List (ι × LogRecord)) : Bytes :=
  records.flatMap fun x => line (format x.1) x.2

theorem foldl_line (format : ι → Format) (written : Bytes) (records : List (ι × LogRecord)) :
    records.foldl (fun written x => written ++ line (format x.1) x.2) written =
      written ++ lines format records := by
  induction records generalizing written with
  | nil => simp [lines]
  | cons record records ih => simp [lines, ih]

section Reachable
variable [DecidableEq ι] [DecidableEq κ] {s : Threads.State ι κ LogRecord Point Descriptors}

/-- What stands on the handle of a sink that has it for itself: whole lines while the sink's mutex
is free, and the beginning of them at every moment. -/
theorem lines_of_reachable (streams : Streams sinks formats handles start)
    (apart : ∀ j, j ≠ k → handles j ≠ handles k)
    (h : (Threads.machine (fun j => monitor (posix fault) (sinks j)) start).Reachable s) :
    (s.lock k = none → s.shared.written (handles k) =
        start.written (handles k) ++ lines (formats k) (s.order k)) ∧
      s.shared.written (handles k) <+:
        start.written (handles k) ++ lines (formats k) (s.order k) := by
  have iso := streams_isolated fault streams apart
  have linear := Threads.linear_of_reachable iso streams.opened h
  obtain ⟨free, held⟩ :=
    linear.foldl fun _ _ written enters => runs_line (streams.formats k) written enters
  rw [foldl_line] at free
  refine ⟨free, ?_⟩
  cases lock : s.lock k with
  | none => exact free lock ▸ List.prefix_rfl
  | some holder =>
      have on := prefix_of_runs (held holder.1 holder.2 lock)
      rwa [foldl_line] at on

/-- Threads that log to any number of sinks with open handles: on a handle that belongs to one sink
only stand the lines of that sink's records, whole and unmixed, in the order in which their
`Emit` took the sink's mutex; while it is held the last line may be unfinished. Each thread's
records come in the order in which the thread emits them. -/
theorem lines_stay_whole (streams : Streams sinks formats handles start)
    (apart : ∀ j, j ≠ k → handles j ≠ handles k)
    {h : List (Threads.State ι κ LogRecord Point Descriptors × Threads.Action ι κ LogRecord)}
    (run : (Threads.machine (fun j => monitor (posix fault) (sinks j)) start).Execution h s) :
    (s.lock k = none → s.shared.written (handles k) =
        start.written (handles k) ++ lines (formats k) (s.order k)) ∧
      s.shared.written (handles k) <+:
        start.written (handles k) ++ lines (formats k) (s.order k) ∧
      ∀ i, Threads.ofThreadOn (fun j => monitor (posix fault) (sinks j)) i k s =
        Threads.taking (fun j => monitor (posix fault) (sinks j)) i k
          (Threads.submitted i h) := by
  obtain ⟨free, begun⟩ := lines_of_reachable streams apart ⟨h, run⟩
  exact ⟨free, begun, fun i => Threads.calls_in_program_order run i k⟩

end Reachable

end Streams

theorem greeting_open :
    Streams (ι := Bool) greeting (fun _ _ _ => .ok (str "hi")) Stream.handle freshHandles where
  formats _ := rfl
  valid _ := rfl
  opened _ := rfl

theorem lines_stay_whole_sample :
    ∃ s : Threads.State Bool Stream LogRecord Point Descriptors,
      s.shared.written 2 = str "hi" ∧ s.shared.written 1 = str "hi\n" := by
  have run : (Threads.machine (fun j => monitor (posix []) (greeting j))
      freshHandles).Execution (σ := Threads.State Bool Stream LogRecord Point Descriptors) _ _ :=
    .next (a := .piece true) (.next (a := .piece false) (.next (a := .piece true)
      (.next (a := .call false) (.next (a := .call true)
        (.next (a := .submit false [(.stderr, LogRecord.default)])
          (.next (a := .submit true [(.stdout, LogRecord.default)]) .start rfl) rfl) rfl) rfl)
            rfl) rfl) rfl
  have lines := lines_stay_whole (k := .stdout) greeting_open
    (fun j other => by cases j <;> first | decide | exact absurd rfl other) run
  refine ⟨_, ?_, lines.1 rfl⟩
  rfl

end Console
end Logrin
