import Logrin.Library.Machine
import Mathlib.Data.Finset.Erase
import Mathlib.Data.Finset.Insert
import Mathlib.Logic.Function.Basic

/-!
`detail::Batcher<T>` as a state machine over all interleavings.

Every region under `n_mux` is one step; the `Signal` of `Push` and the `SignalAll`
of the destructor are separate later steps. `Condvar::Wait` parks and releases the
mutex in one step, and a thread leaves `Wait` only after it has been taken out of the
set of waiters. The last five fields of `Core` are history: no step reads them except
that no call begins once the destructor has been called.
-/

namespace Logrin.Batcher
open Logrin.Library

universe u v
variable {ι : Type u} {T : Type v}

/-- Program points of `workerLoop` at which the mutex is not held. -/
inductive WorkerPoint (T : Type v) where
  | start
  | waiting
  | consuming (batch : List T)
  | consumed
  | exited
  deriving DecidableEq

/-- Program points of a thread inside `Push`, `Flush` or the destructor. A flusher
carries the number of items pushed when it first acquired the mutex. -/
inductive CallerPoint (T : Type v) where
  | idle
  | pushing (item : T)
  | signalling
  | flushing
  | waiting (seen : Nat)
  | flushed (seen : Nat)
  | destroying
  | signallingAll
  | joining
  | destroyed
  deriving DecidableEq

inductive Waiter (ι : Type u) where
  | worker
  | caller (i : ι)
  deriving DecidableEq

structure Core (T : Type v) where
  queue : List T
  running : Bool
  processing : Bool
  worker : WorkerPoint T
  /-- items in the order their `Push` critical sections ran -/
  pushed : List T
  /-- batches given to the consumer, the running one included -/
  handed : List (List T)
  /-- batches the consumer has returned from -/
  returned : List (List T)
  /-- number of items pushed when the destructor was called -/
  destroyMark : Option Nat
  /-- number of items pushed when the worker left its loop -/
  exitMark : Option Nat

structure State (ι : Type u) (T : Type v) extends Core T where
  waiters : Finset (Waiter ι)
  callers : ι → CallerPoint T

def init : State ι T where
  queue := []
  running := true
  processing := false
  worker := .start
  pushed := []
  handed := []
  returned := []
  destroyMark := none
  exitMark := none
  waiters := ∅
  callers := fun _ => .idle

/-- The inner loop that moves items from the front of the queue into the batch. -/
def fillBatch (limit : Nat) (batch : List T) : List T → List T × List T
  | [] => (batch, [])
  | item :: queue =>
      if limit = 0 ∨ batch.length < limit then fillBatch limit (batch ++ [item]) queue
      else (batch, item :: queue)

/-- `workerLoop` from the head of its outer loop to the next release of the mutex:
it parks, leaves the loop, or takes a batch off the queue. -/
def Core.loopHead (limit : Nat) (c : Core T) : Core T :=
  if c.queue.isEmpty && c.running then { c with worker := .waiting }
  else if c.queue.isEmpty && !c.running then
    { c with worker := .exited, exitMark := some c.pushed.length }
  else
    let (batch, rest) := fillBatch limit [] c.queue
    { c with
      queue := rest
      processing := true
      worker := .consuming batch
      handed := c.handed ++ [batch] }

section
variable [DecidableEq ι]

def State.loopHead (limit : Nat) (s : State ι T) : State ι T :=
  { s with
    toCore := s.toCore.loopHead limit
    waiters := if s.queue.isEmpty && s.running then insert .worker s.waiters else s.waiters }

def State.moveCaller (s : State ι T) (i : ι) (point : CallerPoint T) : State ι T :=
  { s with callers := Function.update s.callers i point }

/-- The loop of `Flush`, entered with the mutex held. -/
def State.flushLoop (s : State ι T) (i : ι) (seen : Nat) : State ι T :=
  if !s.queue.isEmpty || s.processing then
    { s.moveCaller i (.waiting seen) with waiters := insert (.caller i) s.waiters }
  else s.moveCaller i (.flushed seen)

/-- What can happen next. `signal` names the waiter it wakes, and nobody only when
nobody waits; `spurious` is a wake-up that nothing in the code asked for. -/
inductive Action (ι : Type u) (T : Type v) where
  | beginPush (i : ι) (item : T)
  | pushLocked (i : ι)
  | signal (i : ι) (chosen : Option (Waiter ι))
  | beginFlush (i : ι)
  | flushLocked (i : ι)
  | leaveFlush (i : ι)
  | beginDestroy (i : ι)
  | destroyLocked (i : ι)
  | signalAll (i : ι)
  | join (i : ι)
  | workerLocked
  | consumerReturns
  | spurious (waiter : Waiter ι)
  deriving DecidableEq

/-- The calling thread holds the mutex in `Push`, or issues its `Signal`. -/
def pushStep (s : State ι T) (i : ι) : Option (State ι T) :=
  match s.callers i with
  | .pushing item =>
      some { s.moveCaller i .signalling with
        queue := s.queue ++ [item], pushed := s.pushed ++ [item] }
  | _ => none

def signalStep (s : State ι T) (i : ι) (chosen : Option (Waiter ι)) : Option (State ι T) :=
  match s.callers i, chosen with
  | .signalling, none => if s.waiters = ∅ then some (s.moveCaller i .idle) else none
  | .signalling, some w =>
      if w ∈ s.waiters then some { s.moveCaller i .idle with waiters := s.waiters.erase w }
      else none
  | _, _ => none

def flushStep (s : State ι T) (i : ι) : Option (State ι T) :=
  match s.callers i with
  | .flushing => some (s.flushLoop i s.pushed.length)
  | .waiting seen =>
      if .caller i ∈ s.waiters then none else some (s.flushLoop i seen)
  | _ => none

/-- The worker acquires the mutex and runs until it releases it. After a batch it
first clears `n_processing` and signals everybody. -/
def workerStep (limit : Nat) (s : State ι T) : Option (State ι T) :=
  match s.worker with
  | .start => some (s.loopHead limit)
  | .waiting => if .worker ∈ s.waiters then none else some (s.loopHead limit)
  | .consumed =>
      some (State.loopHead limit { s with processing := false, waiters := ∅ })
  | _ => none

def step (limit : Nat) (s : State ι T) : Action ι T → Option (State ι T)
  | .beginPush i item =>
      if s.callers i matches .idle && s.destroyMark.isNone then
        some (s.moveCaller i (.pushing item)) else none
  | .pushLocked i => pushStep s i
  | .signal i chosen => signalStep s i chosen
  | .beginFlush i =>
      if s.callers i matches .idle && s.destroyMark.isNone then
        some (s.moveCaller i .flushing) else none
  | .flushLocked i => flushStep s i
  | .leaveFlush i =>
      if s.callers i matches .flushed _ then some (s.moveCaller i .idle) else none
  | .beginDestroy i =>
      if s.callers i matches .idle && s.destroyMark.isNone then
        some { s.moveCaller i .destroying with destroyMark := some s.pushed.length }
      else none
  | .destroyLocked i =>
      if s.callers i matches .destroying then
        some { s.moveCaller i .signallingAll with running := false } else none
  | .signalAll i =>
      if s.callers i matches .signallingAll then
        some { s.moveCaller i .joining with waiters := ∅ } else none
  | .join i =>
      if s.callers i matches .joining && s.worker matches .exited then
        some (s.moveCaller i .destroyed) else none
  | .workerLocked => workerStep limit s
  | .consumerReturns =>
      match s.worker with
      | .consuming _ => some { s with worker := .consumed, returned := s.handed }
      | _ => none
  | .spurious w =>
      if w ∈ s.waiters then some { s with waiters := s.waiters.erase w } else none

/-- The batcher for a given `MaxBatchSize`. -/
def machine (ι : Type u) (T : Type v) [DecidableEq ι] (limit : Nat) :
    Machine (State ι T) (Action ι T) where
  start := init
  step := step limit

@[simp] theorem State.moveCaller_toCore (s : State ι T) (i : ι) (p : CallerPoint T) :
    (s.moveCaller i p).toCore = s.toCore := rfl

@[simp] theorem State.moveCaller_waiters (s : State ι T) (i : ι) (p : CallerPoint T) :
    (s.moveCaller i p).waiters = s.waiters := rfl

@[simp] theorem State.moveCaller_callers (s : State ι T) (i : ι) (p : CallerPoint T) :
    (s.moveCaller i p).callers = Function.update s.callers i p := rfl

@[simp] theorem State.loopHead_toCore (limit : Nat) (s : State ι T) :
    (s.loopHead limit).toCore = s.toCore.loopHead limit := rfl

/-- Caller `i` can acquire the mutex inside `Flush`, for the first time or after a
wake-up; `seen` items had been pushed when it first did. -/
def State.MayFlush (s : State ι T) (i : ι) (seen : Nat) : Prop :=
  s.callers i = .flushing ∧ seen = s.pushed.length ∨
    s.callers i = .waiting seen ∧ .caller i ∉ s.waiters

/-- Everything a step can do, one constructor for each way a program point is left. -/
inductive Steps (limit : Nat) (s : State ι T) : Action ι T → State ι T → Prop
  | beginPush (i : ι) (item : T) : s.callers i = .idle → s.destroyMark = none →
      Steps limit s (.beginPush i item) (s.moveCaller i (.pushing item))
  | pushLocked (i : ι) (item : T) : s.callers i = .pushing item →
      Steps limit s (.pushLocked i)
        { s.moveCaller i .signalling with
          queue := s.queue ++ [item], pushed := s.pushed ++ [item] }
  | signalNobody (i : ι) : s.callers i = .signalling → s.waiters = ∅ →
      Steps limit s (.signal i none) (s.moveCaller i .idle)
  | signalWaiter (i : ι) (w : Waiter ι) : s.callers i = .signalling → w ∈ s.waiters →
      Steps limit s (.signal i (some w))
        { s.moveCaller i .idle with waiters := s.waiters.erase w }
  | beginFlush (i : ι) : s.callers i = .idle → s.destroyMark = none →
      Steps limit s (.beginFlush i) (s.moveCaller i .flushing)
  | flushParks (i : ι) (seen : Nat) : s.MayFlush i seen →
      s.queue ≠ [] ∨ s.processing = true →
      Steps limit s (.flushLocked i)
        { s.moveCaller i (.waiting seen) with waiters := insert (.caller i) s.waiters }
  | flushReturns (i : ι) (seen : Nat) : s.MayFlush i seen →
      s.queue = [] → s.processing = false →
      Steps limit s (.flushLocked i) (s.moveCaller i (.flushed seen))
  | leaveFlush (i : ι) (seen : Nat) : s.callers i = .flushed seen →
      Steps limit s (.leaveFlush i) (s.moveCaller i .idle)
  | beginDestroy (i : ι) : s.callers i = .idle → s.destroyMark = none →
      Steps limit s (.beginDestroy i)
        { s.moveCaller i .destroying with destroyMark := some s.pushed.length }
  | destroyLocked (i : ι) : s.callers i = .destroying →
      Steps limit s (.destroyLocked i)
        { s.moveCaller i .signallingAll with running := false }
  | signalAll (i : ι) : s.callers i = .signallingAll →
      Steps limit s (.signalAll i) { s.moveCaller i .joining with waiters := ∅ }
  | join (i : ι) : s.callers i = .joining → s.worker = .exited →
      Steps limit s (.join i) (s.moveCaller i .destroyed)
  | enter : s.worker = .start ∨ s.worker = .waiting ∧ .worker ∉ s.waiters →
      Steps limit s .workerLocked (s.loopHead limit)
  | relock : s.worker = .consumed →
      Steps limit s .workerLocked
        (State.loopHead limit { s with processing := false, waiters := ∅ })
  | consumerReturns (batch : List T) : s.worker = .consuming batch →
      Steps limit s .consumerReturns { s with worker := .consumed, returned := s.handed }
  | spurious (w : Waiter ι) : w ∈ s.waiters →
      Steps limit s (.spurious w) { s with waiters := s.waiters.erase w }

theorem flushLoop_steps (limit : Nat) (s : State ι T) (i : ι) (seen : Nat)
    (h : s.MayFlush i seen) : Steps limit s (.flushLocked i) (s.flushLoop i seen) := by
  simp only [State.flushLoop]
  split
  · next busy =>
      simp only [Bool.or_eq_true, Bool.not_eq_true', List.isEmpty_eq_false_iff, ne_eq] at busy
      exact .flushParks i seen h busy
  · next idle =>
      simp only [Bool.or_eq_true, Bool.not_eq_true', List.isEmpty_eq_false_iff, ne_eq,
        not_or, not_not, Bool.not_eq_true] at idle
      exact .flushReturns i seen h idle.1 idle.2

theorem steps_of_step {limit : Nat} {s s' : State ι T} {a : Action ι T}
    (hs : step limit s a = some s') : Steps limit s a s' := by
  cases a with
  | beginPush i item =>
      cases hc : s.callers i <;> simp [step, hc] at hs
      obtain ⟨alive, rfl⟩ := hs
      exact .beginPush i item hc alive
  | pushLocked i =>
      simp only [step, pushStep] at hs
      split at hs
      · cases hs
        exact .pushLocked i _ ‹_›
      · contradiction
  | signal i chosen =>
      simp only [step, signalStep] at hs
      split at hs <;> simp only [Option.ite_none_right_eq_some, Option.some.injEq,
        reduceCtorEq] at hs
      · exact hs.2 ▸ .signalNobody i ‹_› hs.1
      · exact hs.2 ▸ .signalWaiter i _ ‹_› hs.1
  | beginFlush i =>
      cases hc : s.callers i <;> simp [step, hc] at hs
      obtain ⟨alive, rfl⟩ := hs
      exact .beginFlush i hc alive
  | flushLocked i =>
      simp only [step, flushStep] at hs
      split at hs <;> simp only [Option.ite_none_left_eq_some, Option.some.injEq,
        reduceCtorEq] at hs
      · exact hs ▸ flushLoop_steps limit s i _ (Or.inl ⟨‹_›, rfl⟩)
      · exact hs.2 ▸ flushLoop_steps limit s i _ (Or.inr ⟨‹_›, hs.1⟩)
  | leaveFlush i =>
      cases hc : s.callers i <;> simp [step, hc] at hs
      exact hs ▸ .leaveFlush i _ hc
  | beginDestroy i =>
      cases hc : s.callers i <;> simp [step, hc] at hs
      obtain ⟨alive, rfl⟩ := hs
      exact .beginDestroy i hc alive
  | destroyLocked i =>
      cases hc : s.callers i <;> simp [step, hc] at hs
      exact hs ▸ .destroyLocked i hc
  | signalAll i =>
      cases hc : s.callers i <;> simp [step, hc] at hs
      exact hs ▸ .signalAll i hc
  | join i =>
      cases hc : s.callers i <;> cases hw : s.worker <;> simp [step, hc, hw] at hs
      exact hs ▸ .join i hc hw
  | workerLocked =>
      simp only [step, workerStep] at hs
      split at hs <;> simp only [Option.ite_none_left_eq_some, Option.some.injEq,
        reduceCtorEq] at hs
      · exact hs ▸ .enter (Or.inl ‹_›)
      · exact hs.2 ▸ .enter (Or.inr ⟨‹_›, hs.1⟩)
      · exact hs ▸ .relock ‹_›
  | consumerReturns =>
      simp only [step] at hs
      split at hs
      · cases hs
        exact .consumerReturns _ ‹_›
      · contradiction
  | spurious w =>
      simp only [step, Option.ite_none_right_eq_some, Option.some.injEq] at hs
      exact hs.2 ▸ .spurious w hs.1

end

end Logrin.Batcher
