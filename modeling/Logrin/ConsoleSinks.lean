import Logrin.ConsoleStreams

/-!
Several `Console` sinks in one process. The two standard handles are shared, so a sink that leaves
its stream closes the handle under all others. An abstract account of the streams, which only looks
at the calls, says which lines come out, and the sinks write exactly that.
-/

namespace Logrin
open Logrin.Library

namespace Console

universe u
variable {κ : Type u}

inductive Use where
  | call (call : Call)
  | withFormatter (format : Format)

structure Sinks (κ : Type u) where
  sinks : κ → Console
  handles : Descriptors

section Calls
variable [DecidableEq κ]

/-- `Console::WithFormatter` replaces the formatter; the other calls are those of one sink. -/
def Sinks.use (fault : Bytes) (s : Sinks κ) (k : κ) : Use → Sinks κ
  | .call call =>
      let process := Process.call fault ⟨s.sinks k, s.handles⟩ call
      ⟨Function.update s.sinks k process.console, process.handles⟩
  | .withFormatter format =>
      { s with sinks := Function.update s.sinks k { s.sinks k with formatter := some format } }

def Sinks.run (fault : Bytes) (s : Sinks κ) (uses : List (κ × Use)) : Sinks κ :=
  uses.foldl (fun s use => s.use fault use.1 use.2) s

end Calls

/-- New sinks, each with its stream and, unless it is made without one, its formatter. -/
def Sinks.new (start : κ → Stream) (format : κ → Option Format) (handles : Descriptors) :
    Sinks κ where
  sinks k := .new (start k) (format k)
  handles := handles

/-- Of each sink the stream named last and the formatter set last, and of each stream whether a
sink has left it. -/
structure Account (κ : Type u) where
  named : κ → Stream
  format : κ → Option Format
  left : Stream → Bool

namespace Account

def new (start : κ → Stream) (format : κ → Option Format) : Account κ where
  named := start
  format := format
  left := fun _ => false

def next [DecidableEq κ] (a : Account κ) (k : κ) : Use → Account κ
  | .call (.withStream stream) =>
      if stream = a.named k then a
      else
        { a with
          named := Function.update a.named k stream
          left := Function.update a.left (a.named k) true }
  | .call (.emit _) => a
  | .withFormatter format => { a with format := Function.update a.format k (some format) }

/-- What comes out of a call: a line on a stream that nobody has left, or the report that it could
not be written, as long as nobody has left `stderr`. -/
def output (fault : Bytes) (a : Account κ) (k : κ) : Use → List (Stream × Bytes)
  | .call (.emit record) =>
      match a.format k with
      | none => []
      | some format =>
          match format record with
          | .error _ => []
          | .ok text =>
              if a.left (a.named k) = false then [(a.named k, text ++ str "\n")]
              else if a.left .stderr = false then [(.stderr, writeError record fault)]
              else []
  | .call (.withStream _) | .withFormatter _ => []

def transcript [DecidableEq κ] (fault : Bytes) (a : Account κ) :
    List (κ × Use) → List (Stream × Bytes)
  | [] => []
  | (k, use) :: uses => a.output fault k use ++ (a.next k use).transcript fault uses

end Account

def onto (handle : Int32) (output : List (Stream × Bytes)) : Bytes :=
  output.flatMap fun o => if o.1.handle = handle then o.2 else []

/-- The sinks have the formatters and streams of the account, and the handles of the streams that
have not been left are open. -/
structure Kept (s : Sinks κ) (a : Account κ) : Prop where
  formatter : ∀ k, (s.sinks k).formatter = a.format k
  descriptor : ∀ k, (s.sinks k).descriptor = some (a.named k).handle
  opened : ∀ stream : Stream, s.handles.opened stream.handle = !a.left stream

section Steps
variable {fault : Bytes} {s : Sinks κ} {a : Account κ} {k : κ}

theorem onto_append (handle : Int32) (output more : List (Stream × Bytes)) :
    onto handle (output ++ more) = onto handle output ++ onto handle more :=
  List.flatMap_append

theorem written_append (handles : Descriptors) (stream : Stream) (bytes : Bytes) (handle : Int32) :
    (handles.append stream.handle bytes).written handle =
      handles.written handle ++ onto handle [(stream, bytes)] := by
  by_cases same : stream.handle = handle
  · subst same
    simp [onto]
  · rw [Handles.append_written_ne _ (Ne.symm same)]
    simp [onto, same]

/-- A line that cannot be written is reported on `stderr`. -/
theorem emit_of_failure {p : Process} {format : Format} {handle : Int32} {record : LogRecord}
    {text : Bytes} (formats : p.console.formatter = some format)
    (valid : p.console.descriptor = some handle) (closed : p.handles.opened handle = false)
    (formatted : format record = .ok text) :
    p.call fault (.emit record) = { p with
      handles := (p.handles.write Stream.stderr.handle (writeError record fault)).1 } := by
  simp only [Process.call, emit, formats, valid, formatted, ok_bind,
    posix_write_of_closed closed]
  rfl

theorem emit_of_none {p : Process} (formats : p.console.formatter = none) (record : LogRecord) :
    p.call fault (.emit record) = p := by
  simp only [Process.call, emit, formats]

theorem emit_of_exception {p : Process} {format : Format} {record : LogRecord}
    {e : Nlohmann.TypeError}
    (formats : p.console.formatter = some format) (raised : format record = .error e) :
    p.call fault (.emit record) = p := by
  simp only [Process.call, emit, formats]
  cases p.console.descriptor with
  | none => rfl
  | some handle =>
      simp only [raised]
      rfl

theorem Kept.emit (kept : Kept s a) (k : κ) (record : LogRecord) (handle : Int32) :
    (Process.call fault ⟨s.sinks k, s.handles⟩ (.emit record)).handles.written handle =
      s.handles.written handle ++ onto handle (a.output fault k (.call (.emit record))) := by
  have formats := kept.formatter k
  have valid := kept.descriptor k
  simp only [Account.output]
  cases chosen : a.format k with
  | none =>
      rw [emit_of_none (formats.trans chosen)]
      exact (List.append_nil _).symm
  | some format =>
      rw [chosen] at formats
      simp only
      cases formatted : format record with
      | error e =>
          rw [emit_of_exception formats formatted]
          exact (List.append_nil _).symm
      | ok text =>
          simp only
          by_cases here : a.left (a.named k) = false
          · rw [if_pos here, emit_of_open formats valid (by rw [kept.opened, here]; rfl) formatted]
            exact written_append _ _ _ _
          · have closed : s.handles.opened (a.named k).handle = false := by
              rw [kept.opened, eq_true_of_ne_false here]
              rfl
            rw [if_neg here, emit_of_failure formats valid closed formatted]
            by_cases heard : a.left .stderr = false
            · rw [if_pos heard, Handles.write_of_open (by rw [kept.opened, heard]; rfl)]
              exact written_append _ _ _ _
            · have silent : s.handles.opened Stream.stderr.handle = false := by
                rw [kept.opened, eq_true_of_ne_false heard]
                rfl
              rw [if_neg heard, Handles.write_of_closed silent]
              exact (List.append_nil _).symm

section Calls
variable [DecidableEq κ]

theorem Kept.withStream (kept : Kept s a) (k : κ) (stream : Stream) :
    Kept (s.use fault k (.call (.withStream stream))) (a.next k (.call (.withStream stream))) ∧
      (s.use fault k (.call (.withStream stream))).handles.written = s.handles.written := by
  by_cases same : stream = a.named k
  · have stays := withStream_same Handles.close s.handles (same ▸ kept.descriptor k)
    simp only [Sinks.use, Process.call, stays, Account.next, if_pos same, Function.update_eq_self]
    exact ⟨kept, trivial⟩
  · have left := Stream.other_of_ne same
    have leaves := withStream_other Handles.close s.handles (left ▸ kept.descriptor k)
    simp only [Sinks.use, Process.call, leaves, Account.next, if_neg same]
    refine ⟨?_, rfl⟩
    exact {
      formatter := fun j => by
        by_cases this : j = k
        · subst this
          simpa using kept.formatter j
        · simpa [this] using kept.formatter j
      descriptor := fun j => by
        by_cases this : j = k
        · subst this
          simp
        · simpa [this] using kept.descriptor j
      opened := fun other => by
        by_cases this : other = a.named k
        · simp [this, left]
        · have ahead := Stream.other_of_ne this
          have apart : other.handle ≠ stream.other.handle := by
            rw [← left, ahead]
            exact (Stream.handle_other_ne other).symm
          simpa [this, Handles.close_opened_ne _ apart] using kept.opened other }

variable (fault) in
/-- One call keeps the account and writes what the account says. -/
theorem Kept.use (kept : Kept s a) (k : κ) (use : Use) :
    Kept (s.use fault k use) (a.next k use) ∧
      ∀ handle, (s.use fault k use).handles.written handle =
        s.handles.written handle ++ onto handle (a.output fault k use) := by
  cases use with
  | withFormatter format =>
      refine ⟨?_, fun handle => (List.append_nil _).symm⟩
      exact {
        formatter := fun j => by
          by_cases this : j = k
          · subst this
            simp [Sinks.use, Account.next]
          · simpa [Sinks.use, Account.next, this] using kept.formatter j
        descriptor := fun j => by
          by_cases this : j = k
          · subst this
            simpa [Sinks.use, Account.next] using kept.descriptor j
          · simpa [Sinks.use, Account.next, this] using kept.descriptor j
        opened := kept.opened }
  | call call =>
      cases call with
      | withStream stream =>
          obtain ⟨next, written⟩ := kept.withStream k stream
          exact ⟨next, fun handle => by rw [written]; exact (List.append_nil _).symm⟩
      | emit record =>
          obtain ⟨console, opened⟩ := call_emit_frame fault ⟨s.sinks k, s.handles⟩ record
          refine ⟨?_, kept.emit k record⟩
          have same : (s.use fault k (.call (.emit record))).sinks = s.sinks := by
            simp only [Sinks.use, console, Function.update_eq_self]
          exact {
            formatter := fun j => same ▸ kept.formatter j
            descriptor := fun j => same ▸ kept.descriptor j
            opened := fun stream => (congrFun opened _).trans (kept.opened stream) }

/-- What comes out of any calls on any sinks is what the account says, handle by handle. -/
theorem Kept.run (kept : Kept s a) (uses : List (κ × Use)) (handle : Int32) :
    (s.run fault uses).handles.written handle =
      s.handles.written handle ++ onto handle (a.transcript fault uses) := by
  induction uses generalizing s a with
  | nil => exact (List.append_nil _).symm
  | cons use uses ih =>
      obtain ⟨next, written⟩ := kept.use fault use.1 use.2
      have rest := ih next
      rw [written] at rest
      rw [Account.transcript, onto_append, ← List.append_assoc]
      exact rest

/-- A line of any sink is written if and only if no sink at all has left its stream before; every
other line is reported on `stderr` as long as no sink has left that. -/
theorem output_accounted {handles : Descriptors} (opened : BothOpen handles) (fault : Bytes)
    (start : κ → Stream) (format : κ → Option Format) (uses : List (κ × Use)) (handle : Int32) :
    ((Sinks.new start format handles).run fault uses).handles.written handle =
      handles.written handle ++
        onto handle ((Account.new start format).transcript fault uses) := by
  have kept : Kept (.new start format handles) (.new start format) :=
    ⟨fun _ => rfl, fun _ => rfl, opened⟩
  exact kept.run uses handle

/-- A sink that goes over to `stderr` takes `stdout` from the other one. -/
theorem output_accounted_sample :
    ((Sinks.new (fun _ : Bool => .stdout) (fun _ => some fun _ => .ok (str "hi"))
      freshHandles).run [] [(true, .call (.withStream .stderr)),
        (false, .call (.emit .default))]).handles.written 1 = [] :=
  output_accounted freshHandles_open [] (fun _ : Bool => .stdout)
    (fun _ => some fun _ => .ok (str "hi"))
    [(true, .call (.withStream .stderr)), (false, .call (.emit .default))] 1

end Calls

end Steps

end Console
end Logrin
