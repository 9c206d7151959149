import Logrin.BatcherDrain
import Logrin.BatcherOrder
import Logrin.BatcherShutdown
import Logrin.Library.Simulation
import Logrin.OpenTelemetry

/-!
`sinks::OpenTelemetry`: a batcher whose consumer converts and emits the records of a batch one
after the other. A failing conversion ends the process in the middle of a batch, and nothing
happens after it.

`Enqueue` is `Push`, `Flush` is `Flush`, and the destructor is that of `n_batcher`, which is
declared after `n_otel` and so destroyed before it.

The records in the queue are copies, but a copy of a record has only a view of the message, and
the worker reads through it after `Enqueue` has returned. What it finds there is up to the rest of
the program, which may have changed or freed the text, so every emission comes with the text it
reads. The keys and values of a record's fields are its own, and its other views are not read.
-/

namespace Logrin
open Logrin.Library

/-- The record when the view of its message shows this text. -/
def LogRecord.showing (record : LogRecord) (text : Bytes) : LogRecord :=
  { record with message := text }

namespace OpenTelemetry

universe u
variable {ι : Type u}

structure State (ι : Type u) where
  /-- the queued records have the messages with which they were enqueued -/
  batcher : Batcher.State ι LogRecord
  /-- the records of the batch that the loop of the consumer has not come past -/
  pending : List LogRecord
  /-- those that it has, each with the text that the view of its message showed -/
  read : List (LogRecord × Bytes)
  /-- the arguments of `EmitLogRecord` so far -/
  emitted : List Record
  aborted : Option Abort

def init : State ι where
  batcher := Batcher.init
  pending := []
  read := []
  emitted := []
  aborted := none

inductive Action (ι : Type u) where
  | batcher (a : Batcher.Action ι LogRecord)
  | emit (text : Bytes)
  deriving DecidableEq

/-- One iteration of the loop over the batch, at which the view of the message shows `text`. -/
def emitStep (s : State ι) (text : Bytes) : Option (State ι) :=
  match s.pending with
  | [] => none
  | record :: rest =>
      match logRecordToOpenTelemetry (record.showing text) with
      | .ok log =>
          some { s with
            pending := rest
            read := s.read ++ [(record, text)]
            emitted := s.emitted ++ [log] }
      | .error abort => some { s with aborted := some abort }

section
variable [DecidableEq ι]

/-- A step of the batcher. The consumer returns after the last record, and the worker calls it
with the batch that it has just taken. -/
def batcherStep (limit : Nat) (s : State ι) (a : Batcher.Action ι LogRecord) :
    Option (State ι) :=
  if a matches .consumerReturns && !s.pending.isEmpty then none
  else do
    let batcher ← Batcher.step limit s.batcher a
    some { s with
      batcher := batcher
      pending := if a matches .workerLocked then batcher.worker.batch.flatten else s.pending }

def step (limit : Nat) (s : State ι) (a : Action ι) : Option (State ι) :=
  if s.aborted.isSome then none
  else
    match a with
    | .batcher a => batcherStep limit s a
    | .emit text => emitStep s text

end

def machine (ι : Type u) [DecidableEq ι] (limit : Nat) : Machine (State ι) (Action ι) where
  start := init
  step := step limit

/-- Everything a step can do. -/
inductive Steps [DecidableEq ι] (limit : Nat) (s : State ι) : Action ι → State ι → Prop
  | worker (b : Batcher.State ι LogRecord) :
      Batcher.step limit s.batcher .workerLocked = some b →
      Steps limit s (.batcher .workerLocked)
        { s with batcher := b, pending := b.worker.batch.flatten }
  | returns (b : Batcher.State ι LogRecord) : s.pending = [] →
      Batcher.step limit s.batcher .consumerReturns = some b →
      Steps limit s (.batcher .consumerReturns) { s with batcher := b }
  | caller (a : Batcher.Action ι LogRecord) (b : Batcher.State ι LogRecord) :
      a.continues ≠ some .worker → Batcher.step limit s.batcher a = some b →
      Steps limit s (.batcher a) { s with batcher := b }
  | emits (record : LogRecord) (text : Bytes) (rest : List LogRecord) (log : Record) :
      s.pending = record :: rest → logRecordToOpenTelemetry (record.showing text) = .ok log →
      Steps limit s (.emit text)
        { s with
          pending := rest
          read := s.read ++ [(record, text)]
          emitted := s.emitted ++ [log] }
  | aborts (record : LogRecord) (text : Bytes) (rest : List LogRecord) (abort : Abort) :
      s.pending = record :: rest → logRecordToOpenTelemetry (record.showing text) = .error abort →
      Steps limit s (.emit text) { s with aborted := some abort }

/-- The conversion of a record with a text that was read for its message. -/
def converted (x : LogRecord × Bytes) : Except Abort Record :=
  (logRecordToOpenTelemetry x.1).map fun log => { log with body := x.2 }

/-- Every text that has been read was still the one with which its record was enqueued. -/
def State.Lasting (s : State ι) : Prop := ∀ x ∈ s.read, x.2 = x.1.message

instance (s : State ι) : Decidable s.Lasting :=
  inferInstanceAs (Decidable (∀ x ∈ s.read, x.2 = x.1.message))

/-- What has been emitted are the conversions of these records, each with the text that was read
for its message, and of the records as they were enqueued if the texts have lasted. -/
structure State.Emits (s : State ι) (done : List LogRecord) : Prop where
  read : s.read.map Prod.fst = done
  converted : s.read.map converted = s.emitted.map .ok
  lasting : s.Lasting → done.map logRecordToOpenTelemetry = s.emitted.map .ok

/-- The records of the batches handed over are those read, in that order, and those that the
consumer has not come past; it stands still at one only if that one cannot be converted. -/
structure Emission (s : State ι) (done : List LogRecord) : Prop where
  handed : done ++ s.pending = s.batcher.handed.flatten
  read : s.read.map Prod.fst = done
  converted : s.read.map converted = s.emitted.map .ok
  within : s.pending <:+ s.batcher.worker.batch.flatten
  aborted : ∀ abort, s.aborted = some abort →
    ∃ record rest, s.pending = record :: rest ∧ logRecordToOpenTelemetry record = .error abort

/-- Nothing but the body of a log depends on the message. -/
theorem convert_showing (record : LogRecord) (text : Bytes) :
    logRecordToOpenTelemetry (record.showing text) = converted (record, text) := by
  simp only [converted, logRecordToOpenTelemetry, LogRecord.showing]
  cases logLevelToSeverity record.level with
  | error abort => rfl
  | ok severity => cases concatM setAttribute record.fields.entries <;> rfl

theorem converted_message (record : LogRecord) :
    converted (record, record.message) = logRecordToOpenTelemetry record :=
  (convert_showing record record.message).symm

theorem error_of_showing {record : LogRecord} {text : Bytes} {abort : Abort}
    (h : logRecordToOpenTelemetry (record.showing text) = .error abort) :
    logRecordToOpenTelemetry record = .error abort := by
  rw [convert_showing, converted] at h
  cases hrecord : logRecordToOpenTelemetry record with
  | ok log =>
      rw [hrecord] at h
      cases h
  | error abort' =>
      rw [hrecord] at h
      exact h

theorem Emission.emits {s : State ι} {done : List LogRecord} (inv : Emission s done) :
    s.Emits done where
  read := inv.read
  converted := inv.converted
  lasting lasting := by
    rw [← inv.read, ← inv.converted, List.map_map]
    apply List.map_congr_left
    intro x member
    obtain ⟨record, text⟩ := x
    have same : text = record.message := lasting _ member
    rw [same, converted_message]
    rfl

theorem Emission.length {s : State ι} {done : List LogRecord} (inv : Emission s done) :
    s.emitted.length = done.length := by
  have count := congrArg List.length inv.converted
  simp only [List.length_map] at count
  rw [← inv.read, List.length_map, count]

theorem Emission.idle {s : State ι} {done : List LogRecord} (inv : Emission s done)
    (h : s.batcher.worker.batch = []) : s.pending = [] := by
  have within := inv.within
  simpa [h] using within

/-- What the consumer has returned from has been emitted. -/
theorem Emission.returned {limit : Nat} {s : State ι} {done : List LogRecord}
    (inv : Emission s done) (delivery : Batcher.Delivery limit s.batcher.toCore) :
    s.batcher.returned.flatten <+: done := by
  obtain ⟨before, split⟩ := inv.within
  have whole : s.batcher.returned.flatten ++ before ++ s.pending = done ++ s.pending := by
    rw [inv.handed, ← delivery.returned, List.flatten_append, ← split, List.append_assoc]
  exact ⟨before, List.append_cancel_right whole⟩

section
variable [DecidableEq ι] {limit : Nat} {s s' : State ι} {a : Action ι}

theorem steps_of_step (hs : step limit s a = some s') : s.aborted = none ∧ Steps limit s a s' := by
  simp only [step, Option.ite_none_left_eq_some, Option.isSome_iff_ne_none, ne_eq, not_not] at hs
  obtain ⟨alive, hs⟩ := hs
  refine ⟨alive, ?_⟩
  cases a with
  | emit text =>
      simp only [emitStep] at hs
      split at hs
      · cases hs
      · next record rest pending =>
          split at hs <;> cases hs
          · exact .emits record text rest _ pending ‹_›
          · exact .aborts record text rest _ pending ‹_›
  | batcher a =>
      simp only [batcherStep, Option.ite_none_left_eq_some] at hs
      obtain ⟨allowed, hs⟩ := hs
      obtain ⟨b, hb, hs⟩ := Option.bind_eq_some_iff.mp hs
      cases hs
      cases a with
      | workerLocked => exact .worker b hb
      | consumerReturns => exact .returns b (by simpa using allowed) hb
      | beginPush | pushLocked | signal | beginFlush | flushLocked | leaveFlush | beginDestroy
      | destroyLocked | signalAll | join | spurious =>
          exact .caller _ b (by simp [Batcher.Action.continues]) hb

def toBatcher (ι : Type u) [DecidableEq ι] (limit : Nat) :
    Simulation (machine ι limit) (Batcher.machine ι LogRecord limit) where
  state := State.batcher
  label _ a := match a with
    | .batcher a => some a
    | .emit _ => none
  start := rfl
  step s a s' hs := by
    cases (steps_of_step hs).2 with
    | worker _ h | returns _ _ h | caller _ _ _ h => exact h
    | emits | aborts => rfl

/-- What the worker and the consumer do to the batches. -/
theorem handed_step {b b' : Batcher.State ι LogRecord} {a : Batcher.Action ι LogRecord}
    (hs : Batcher.step limit b a = some b') :
    (a = .workerLocked → b.worker.batch = [] ∧ b'.handed = b.handed ++ b'.worker.batch) ∧
    (a = .consumerReturns → b'.handed = b.handed ∧ b'.worker.batch = []) ∧
    (a.continues ≠ some .worker → b'.handed = b.handed ∧ b'.worker = b.worker) := by
  have head (c : Batcher.Core LogRecord) :
      (c.loopHead limit).handed = c.handed ++ (c.loopHead limit).worker.batch := by
    obtain ⟨_, _, h⟩ | ⟨_, _, h⟩ | ⟨_, _, _, _, _, h⟩ := Batcher.Core.loopHead_cases limit c <;>
      simp [h, Batcher.WorkerPoint.batch]
  cases Batcher.steps_of_step hs with
  | enter hw =>
      refine ⟨fun _ => ⟨?_, head _⟩, by simp, by simp [Batcher.Action.continues]⟩
      obtain hw | ⟨hw, _⟩ := hw <;> simp [hw, Batcher.WorkerPoint.batch]
  | relock hw =>
      exact ⟨fun _ => ⟨by simp [hw, Batcher.WorkerPoint.batch], head _⟩, by simp,
        by simp [Batcher.Action.continues]⟩
  | consumerReturns => simp [Batcher.WorkerPoint.batch, Batcher.Action.continues]
  | beginPush | pushLocked | signalNobody | signalWaiter | beginFlush | flushParks | flushReturns
  | leaveFlush | beginDestroy | destroyLocked | signalAll | join | spurious => simp

theorem Emission.step {done : List LogRecord} (inv : Emission s done)
    (hs : step limit s a = some s') : ∃ more, Emission s' (done ++ more) := by
  obtain ⟨alive, steps⟩ := steps_of_step hs
  cases steps with
  | worker b hb =>
      obtain ⟨idle, handed⟩ := (handed_step hb).1 rfl
      have empty := inv.idle idle
      refine ⟨[], ?_, by simpa using inv.read, inv.converted, List.suffix_rfl, by simp [alive]⟩
      simp [handed, ← inv.handed, empty]
  | returns b empty hb =>
      obtain ⟨handed, _⟩ := (handed_step hb).2.1 rfl
      refine ⟨[], ?_, by simpa using inv.read, inv.converted, ?_, by simp [alive]⟩
      · simpa [handed] using inv.handed
      · simp [empty]
  | caller a b other hb =>
      obtain ⟨handed, worker⟩ := (handed_step hb).2.2 other
      refine ⟨[], ?_, by simpa using inv.read, inv.converted, ?_, by simp [alive]⟩
      · simpa [handed] using inv.handed
      · simpa [worker] using inv.within
  | emits record text rest log pending hlog =>
      rw [convert_showing] at hlog
      refine ⟨[record], ?_, by simp [inv.read], by simp [inv.converted, hlog], ?_, by simp [alive]⟩
      · simpa [pending] using inv.handed
      · exact (List.suffix_cons record rest).trans (pending ▸ inv.within)
  | aborts record text rest abort pending failed =>
      refine ⟨[], ?_, by simpa using inv.read, inv.converted, inv.within, ?_⟩
      · simpa using inv.handed
      · intro abort' same
        cases same
        exact ⟨record, rest, pending, error_of_showing failed⟩

theorem emission_of_reachable (h : (machine ι limit).Reachable s) : ∃ done, Emission s done := by
  apply h.invariant (I := fun s => ∃ done, Emission s done)
  · refine ⟨[], ?_⟩
    constructor <;> simp [machine, init, Batcher.init]
  · intro s a s' _ inv hs
    obtain ⟨done, inv⟩ := inv
    obtain ⟨more, inv⟩ := inv.step hs
    exact ⟨_, inv⟩

theorem batcher_reachable (h : (machine ι limit).Reachable s) :
    (Batcher.machine ι LogRecord limit).Reachable s.batcher :=
  (toBatcher ι limit).reachable h

theorem Emission.pushed {done : List LogRecord} (inv : Emission s done)
    (h : (machine ι limit).Reachable s) :
    done ++ s.pending ++ s.batcher.queue = s.batcher.pushed := by
  rw [inv.handed, (Batcher.delivery_of_reachable (batcher_reachable h)).conserved]

/-- The records emitted are the first ones enqueued, each once and in that order, up to the
record that cannot be converted if the process has ended. Those enqueued before a `Flush` that
returns and those enqueued before the destructor that returns are among them. Their messages are
as enqueued if the texts have lasted until they were read. -/
theorem emitted_in_order (h : (machine ι limit).Reachable s) : ∃ done,
    done ++ s.pending ++ s.batcher.queue = s.batcher.pushed ∧ s.Emits done ∧
    (∀ i seen, s.batcher.callers i = .flushed seen → s.batcher.pushed.take seen <+: done) ∧
    (∀ i, s.batcher.callers i = .destroyed → ∃ called, s.batcher.destroyMark = some called ∧
      s.batcher.pushed.take called <+: done) ∧
    (∀ abort, s.aborted = some abort → ∃ record rest, s.pending = record :: rest ∧
      logRecordToOpenTelemetry record = .error abort) := by
  obtain ⟨done, inv⟩ := emission_of_reachable h
  have below := batcher_reachable h
  have delivery := Batcher.delivery_of_reachable below
  have split := inv.pushed h
  refine ⟨done, split, inv.emits, ?_, ?_, inv.aborted⟩
  · intro i seen hi
    have returned := inv.returned delivery
    have le := ((Batcher.barrier_of_reachable below).flushed i seen hi).trans returned.length_le
    rw [← split, List.append_assoc, List.take_append_of_le_length le]
    exact List.take_prefix seen done
  · intro i hi
    have left := Batcher.exited_of_destroyed below i hi
    obtain ⟨n, hn⟩ := delivery.left left
    obtain ⟨_, count, called, marked, le⟩ := delivery.exited n hn
    have empty := inv.idle (by simp [left, Batcher.WorkerPoint.batch])
    refine ⟨called, marked, ?_⟩
    have first : done = s.batcher.pushed.take n := by
      rw [count, ← inv.handed, ← split, empty, List.append_nil, List.take_left]
    rw [first]
    exact List.take_prefix_take_left le

/-- What has been enqueued or emitted stays so. -/
theorem history_step (hs : step limit s a = some s') :
    s.batcher.pushed <+: s'.batcher.pushed ∧ s.emitted <+: s'.emitted := by
  cases (steps_of_step hs).2 with
  | worker _ hb | returns _ _ hb | caller _ _ _ hb =>
      exact ⟨(Batcher.history_step hb).1, List.prefix_rfl⟩
  | emits => exact ⟨List.prefix_rfl, List.prefix_append _ _⟩
  | aborts => exact ⟨List.prefix_rfl, List.prefix_rfl⟩

/-- As long as nobody calls `Enqueue` and no such call is in progress, nothing is enqueued. -/
theorem settled_step (hs : step limit s a = some s')
    (settled : ∀ i, (s.batcher.callers i).pending = [])
    (nothing : ∀ b, a = .batcher b → ∀ i, Batcher.begunBy i b = []) :
    (∀ i, (s'.batcher.callers i).pending = []) ∧ s'.batcher.pushed = s.batcher.pushed := by
  have below {b : Batcher.State ι LogRecord} {x : Batcher.Action ι LogRecord}
      (hb : Batcher.step limit s.batcher x = some b) (nothing : ∀ i, Batcher.begunBy i x = []) :
      (∀ i, (b.callers i).pending = []) ∧ b.pushed = s.batcher.pushed := by
    have queued : Batcher.queuedBy s.batcher x = [] := by
      cases x <;> simp [Batcher.queuedBy, settled]
    constructor
    · intro i
      have balance := Batcher.pending_step hb i
      simpa [settled, nothing, queued, Batcher.ofThread] using balance.symm
    · rw [Batcher.pushed_step hb, queued]
      simp
  cases (steps_of_step hs).2 with
  | worker _ hb | returns _ _ hb | caller _ _ _ hb => exact below hb (nothing _ rfl)
  | emits | aborts => exact ⟨settled, rfl⟩

theorem flushing_of_begin {i : ι} (hs : step limit s (.batcher (.beginFlush i)) = some s') :
    s'.batcher.callers i = .flushing := by
  cases (steps_of_step hs).2 with
  | caller _ b _ hb =>
      cases Batcher.steps_of_step hb
      simp

/-- A `Flush` in progress that waits for at least `n` records goes on waiting for them, until it
returns and they have been emitted. -/
theorem flushes_step {i : ι} {n : Nat} (reachable : (machine ι limit).Reachable s)
    (hs : step limit s a = some s') (h : (s.batcher.callers i).Flushes n)
    (enough : n ≤ s.batcher.pushed.length) :
    (s'.batcher.callers i).Flushes n ∨ n ≤ s.emitted.length := by
  have below {b : Batcher.State ι LogRecord} {x : Batcher.Action ι LogRecord}
      (hb : Batcher.step limit s.batcher x = some b) :
      (b.callers i).Flushes n ∨ n ≤ s.emitted.length := by
    obtain still | ⟨seen, le, hi⟩ := Batcher.flushes_step hb h enough
    · exact Or.inl still
    · obtain ⟨done, inv⟩ := emission_of_reachable reachable
      have barrier := Batcher.barrier_of_reachable (batcher_reachable reachable)
      have returned := inv.returned (Batcher.delivery_of_reachable (batcher_reachable reachable))
      exact Or.inr (inv.length ▸ (le.trans (barrier.flushed i seen hi)).trans returned.length_le)
  cases (steps_of_step hs).2 with
  | worker _ hb | returns _ _ hb | caller _ _ _ hb => exact below hb
  | emits | aborts => exact Or.inl h

/-- Two records are enqueued and taken in one batch. The message of the first has been overwritten
before it is read, and the second cannot be converted. -/
def abortingRun (i : ι) : List (Action ι) :=
  [.batcher (.beginPush i LogRecord.default), .batcher (.pushLocked i), .batcher (.signal i none),
    .batcher (.beginPush i (oneField (.uint64 9223372036854775808))), .batcher (.pushLocked i),
    .batcher .workerLocked, .emit (str "gone"), .emit []]

theorem emitted_in_order_sample : ∃ s, (machine Unit 0).run init (abortingRun ()) = some s ∧
    s.aborted = some lossy ∧ s.emitted.map Record.body = [str "gone"] ∧
    ∃ done, done ++ s.pending ++ s.batcher.queue = s.batcher.pushed ∧ s.Emits done := by
  obtain ⟨s, hs, aborted, body⟩ : ∃ s, (machine Unit 0).run init (abortingRun ()) = some s ∧
      s.aborted = some lossy ∧ s.emitted.map Record.body = [str "gone"] := ⟨_, rfl, rfl, rfl⟩
  obtain ⟨done, split, emits, _⟩ :=
    emitted_in_order (Machine.reachable_of_run (M := machine Unit 0) (abortingRun ()) hs)
  exact ⟨s, hs, aborted, body, done, split, emits⟩

def Action.thread : Action ι → Option (Batcher.Waiter ι)
  | .batcher a => a.continues
  | .emit _ => some .worker

theorem enabled_of_batcher {b : Batcher.Action ι LogRecord} (alive : s.aborted = none)
    (last : b = .consumerReturns → s.pending = [])
    (h : (Batcher.step limit s.batcher b).isSome) : (step limit s (.batcher b)).isSome := by
  obtain ⟨after, hb⟩ := Option.isSome_iff_exists.mp h
  cases b with
  | consumerReturns => simp [step, alive, batcherStep, hb, last rfl]
  | beginPush | pushLocked | signal | beginFlush | flushLocked | leaveFlush | beginDestroy
  | destroyLocked | signalAll | join | workerLocked | spurious =>
      simp [step, alive, batcherStep, hb]

theorem enabled_emit {record : LogRecord} {rest : List LogRecord} (alive : s.aborted = none)
    (h : s.pending = record :: rest) (text : Bytes) : (step limit s (.emit text)).isSome := by
  simp only [step, alive, Option.isSome_none, Bool.false_eq_true, ↓reduceIte, emitStep, h]
  split <;> rfl

section Fair
variable {S : Schedule (machine ι limit)}

theorem fair_caller {i : ι} (alive : ∀ m, (S.state m).aborted = none)
    (fair : S.FairTo fun a => a.thread = some (.caller i)) :
    Batcher.FairThread ((toBatcher ι limit).schedule S) (.caller i) := by
  intro n always
  have enabled (m : Nat) (le : n ≤ m) : ∃ a : Action ι, a.thread = some (.caller i) ∧
      ((machine ι limit).step (S.state m) a).isSome := by
    obtain ⟨b, act, hb⟩ := always m le
    have other : b = .consumerReturns → (S.state m).pending = [] := by
      intro same
      simp [same, Batcher.Action.continues] at act
    exact ⟨.batcher b, act, enabled_of_batcher (alive m) other hb⟩
  obtain ⟨m, a, le, ha, act⟩ := fair n enabled
  cases a with
  | emit => cases act
  | batcher b => exact ⟨m, b, le, by simp [Simulation.schedule, ha, toBatcher], act⟩

/-- The consumer cannot emit for ever: each record it comes past is one less of the batch. -/
theorem fair_worker (alive : ∀ m, (S.state m).aborted = none)
    (fair : S.FairTo fun a => a.thread = some .worker) :
    Batcher.FairThread ((toBatcher ι limit).schedule S) .worker := by
  intro n always
  by_contra never
  have still {m : Nat} {b : Batcher.Action ι LogRecord} (le : n ≤ m)
      (hb : S.label m = some (.batcher b)) : b.continues ≠ some .worker :=
    fun act => never ⟨m, b, le, by simp [Simulation.schedule, hb, toBatcher], act⟩
  have enabled (m : Nat) (le : n ≤ m) : ∃ a : Action ι, a.thread = some .worker ∧
      ((machine ι limit).step (S.state m) a).isSome := by
    obtain ⟨b, act, hb⟩ := always m le
    cases pending : (S.state m).pending with
    | nil => exact ⟨.batcher b, act, enabled_of_batcher (alive m) (fun _ => pending) hb⟩
    | cons record rest => exact ⟨.emit [], rfl, @enabled_emit _ _ limit _ _ _ (alive m) pending []⟩
  have shrinks {m : Nat} {a : Action ι} (le : n ≤ m) (ha : S.label m = some a) :
      (S.state (m + 1)).pending.length + (if a matches .emit _ then 1 else 0) =
        (S.state m).pending.length := by
    have steps := (steps_of_step (Schedule.step_of_label ha)).2
    have later := alive (m + 1)
    generalize S.state (m + 1) = after at steps later
    cases steps with
    | worker | returns => exact absurd rfl (still le ha)
    | caller => simp
    | emits _ _ _ _ pending => simp [pending]
    | aborts => cases later
  have drops (k m : Nat) (le : n ≤ m) (low : (S.state m).pending.length ≤ k) :
      ∃ m', n ≤ m' ∧ (S.state m').pending.length + 1 ≤ k := by
    obtain ⟨m', a, le', ha, act⟩ := fair m fun j hj => enabled j (Nat.le_trans le hj)
    have lower : (S.state m').pending.length ≤ k := by
      apply Schedule.always_of_kept (P := fun s : State ι => s.pending.length ≤ k) low _ m' le'
      intro j b hj hb small
      have change := shrinks (Nat.le_trans le hj) hb
      omega
    have later := Nat.le_trans le le'
    cases a with
    | batcher b => exact absurd act (still later ha)
    | emit text =>
        have change := shrinks later ha
        rw [if_pos rfl] at change
        exact ⟨m' + 1, by omega, by omega⟩
  have falls (k : Nat) : ∀ m, n ≤ m → ¬ (S.state m).pending.length ≤ k := by
    induction k with
    | zero =>
        intro m le low
        obtain ⟨m', _, impossible⟩ := drops 0 m le low
        omega
    | succ k ih =>
        intro m le low
        obtain ⟨m', le', lower⟩ := drops (k + 1) m le low
        exact ih m' le' (Nat.le_of_succ_le_succ lower)
  exact falls _ n (Nat.le_refl n) (Nat.le_refl _)

/-- The destructor of the sink returns, and all that was enqueued when it was called has then been
emitted, unless the process ends at a record that cannot be converted. -/
theorem destructor_emits_all {i : ι} {n : Nat} (worker : S.FairTo fun a => a.thread = some .worker)
    (caller : S.FairTo fun a => a.thread = some (.caller i))
    (called : S.label n = some (.batcher (.beginDestroy i))) :
    ∃ m, n < m ∧
      (((S.state m).batcher.callers i = .destroyed ∧ (S.state m).aborted = none ∧
          ∃ done, (S.state n).batcher.pushed <+: done ∧ (S.state m).Emits done) ∨
        ∃ abort, (S.state m).aborted = some abort ∧ ∃ record ∈ (S.state m).batcher.pushed,
          logRecordToOpenTelemetry record = .error abort) := by
  by_cases alive : ∀ m, (S.state m).aborted = none
  · have label : ((toBatcher ι limit).schedule S).label n = some (.beginDestroy i) := by
      simp [Simulation.schedule, called, toBatcher]
    obtain ⟨m, lt, destroyed⟩ := Batcher.destroyed_eventually
      (fair_worker alive worker) (fair_caller alive caller) label
    have all := (Batcher.returned_of_destroyed label lt destroyed).2
    obtain ⟨done, inv⟩ := emission_of_reachable (S.reachable_state m)
    have returned := inv.returned (Batcher.delivery_of_reachable
      (batcher_reachable (S.reachable_state m)))
    exact ⟨m, lt, Or.inl ⟨destroyed, alive m, done, all.trans returned, inv.emits⟩⟩
  · obtain ⟨m, died⟩ := not_forall.mp alive
    obtain ⟨abort, died⟩ := Option.ne_none_iff_exists'.mp died
    have since : (S.state (max m (n + 1))).aborted = some abort := by
      apply Schedule.always_of_kept (P := fun s : State ι => s.aborted = some abort) died _ _
        (Nat.le_max_left _ _)
      intro j a _ ha dead
      have alive := (steps_of_step (Schedule.step_of_label ha)).1
      simp [dead] at alive
    obtain ⟨done, inv⟩ := emission_of_reachable (S.reachable_state (max m (n + 1)))
    obtain ⟨record, rest, pending, failed⟩ := inv.aborted abort since
    refine ⟨max m (n + 1), by omega, Or.inr ⟨abort, since, record, ?_, failed⟩⟩
    rw [← inv.pushed (S.reachable_state _), pending]
    simp

end Fair

/-- A record enqueued, and the sink destroyed by the thread that enqueued it. -/
def emittingRun (i : ι) : List (Action ι) :=
  [.batcher .workerLocked, .batcher (.beginPush i LogRecord.default), .batcher (.pushLocked i),
    .batcher (.signal i (some .worker)), .batcher (.beginDestroy i), .batcher .workerLocked,
    .batcher (.destroyLocked i), .batcher (.signalAll i), .emit [], .batcher .consumerReturns,
    .batcher .workerLocked, .batcher (.join i)]

theorem emittingRun_ends : ∃ s, (machine Unit 1).run init (emittingRun ()) = some s ∧
    s.batcher.callers () = .destroyed ∧ s.batcher.worker = .exited ∧ s.pending = [] :=
  ⟨_, rfl, rfl, rfl, rfl⟩

theorem destructor_emits_all_sample : ∃ S : Schedule (machine Unit 1),
    S.label 4 = some (.batcher (.beginDestroy ())) ∧
      (S.state 4).batcher.pushed = [LogRecord.default] ∧
      ∃ m, 4 < m ∧
        (((S.state m).batcher.callers () = .destroyed ∧ (S.state m).aborted = none ∧
            ∃ done, (S.state 4).batcher.pushed <+: done ∧ (S.state m).Emits done) ∨
          ∃ abort, (S.state m).aborted = some abort ∧ ∃ record ∈ (S.state m).batcher.pushed,
            logRecordToOpenTelemetry record = .error abort) := by
  obtain ⟨last, hr, callers, worker, pending⟩ := emittingRun_ends
  have fair (t : Batcher.Waiter Unit) :
      (Schedule.ofRun (emittingRun ()) hr).FairTo fun a => a.thread = some t := by
    apply Schedule.fairTo_ofRun
    intro a act
    have settled := @Batcher.stuck_of_settled _ _ _ 1 _ (fun _ => Or.inr callers)
      (Or.inl worker) t
    cases a with
    | emit text => simp [machine, step, emitStep, pending]
    | batcher b => simp [machine, step, batcherStep, settled b act]
  exact ⟨_, rfl, rfl, destructor_emits_all (n := 4) (fair .worker) (fair (.caller ())) rfl⟩

end

end OpenTelemetry
end Logrin
