import Logrin.BatcherDelivery

/-!
The consumer of a batcher sees the items of each thread in the order in which that thread pushed
them, each one once, whatever the threads do in between.
-/

namespace Logrin.Batcher
open Logrin.Library

universe u v
variable {ι : Type u} {T : Type v}

/-- The item of a `Push` whose critical section has not run. -/
def CallerPoint.pending : CallerPoint T → List T
  | .pushing item => [item]
  | _ => []

/-- The item a step puts into the queue, with the thread that pushed it. -/
def queuedBy (s : State ι T) : Action ι T → List (ι × T)
  | .pushLocked i => (s.callers i).pending.map (Prod.mk i)
  | _ => []

/-- The items put into the queue along a history, in that order. -/
def queued (h : List (State ι T × Action ι T)) : List (ι × T) :=
  h.flatMap fun x => queuedBy x.1 x.2

section
variable [DecidableEq ι] {limit : Nat} {s s' : State ι T} {a : Action ι T}

/-- The item of a call of `Push` by thread `i`. -/
def begunBy (i : ι) : Action ι T → List T
  | .beginPush j item => if j = i then [item] else []
  | _ => []

/-- The items thread `i` has called `Push` with along a history, in that order. -/
def begun (i : ι) (h : List (State ι T × Action ι T)) : List T :=
  h.flatMap fun x => begunBy i x.2

def ofThread (i : ι) (items : List (ι × T)) : List T :=
  (items.filter fun x => x.1 = i).map Prod.snd

theorem ofThread_append (i : ι) (xs ys : List (ι × T)) :
    ofThread i (xs ++ ys) = ofThread i xs ++ ofThread i ys := by
  simp [ofThread]

theorem pushed_step (hs : step limit s a = some s') :
    s'.pushed = s.pushed ++ (queuedBy s a).map Prod.snd := by
  cases steps_of_step hs with
  | pushLocked i item hi => simp [queuedBy, hi, CallerPoint.pending]
  | enter | relock =>
      rw [State.loopHead_toCore, (Core.loopHead_history _ _).1]
      simp [queuedBy]
  | beginPush | signalNobody | signalWaiter | beginFlush | flushParks | flushReturns | leaveFlush
  | beginDestroy | destroyLocked | signalAll | join | consumerReturns | spurious =>
      simp [queuedBy]

/-- What a thread has in hand after a step: what it had, and what it calls `Push` with, less what
it puts into the queue. -/
theorem pending_step (hs : step limit s a = some s') (i : ι) :
    (s.callers i).pending ++ begunBy i a =
      ofThread i (queuedBy s a) ++ (s'.callers i).pending := by
  have moved {j : ι} {p q : CallerPoint T} (hj : s.callers j = p) (hp : p.pending = [])
      (hq : q.pending = []) :
      (s.callers i).pending = ((s.moveCaller j q).callers i).pending := by
    by_cases same : i = j
    · subst same
      simp [hj, hp, hq]
    · simp [Function.update_of_ne same]
  cases steps_of_step hs with
  | beginPush j item hj =>
      by_cases same : j = i
      · subst same
        simp [begunBy, queuedBy, ofThread, hj, CallerPoint.pending]
      · simp [begunBy, queuedBy, ofThread, same, Function.update_of_ne (Ne.symm same)]
  | pushLocked j item hj =>
      by_cases same : j = i
      · subst same
        simp [begunBy, queuedBy, ofThread, hj, CallerPoint.pending]
      · simp [begunBy, queuedBy, ofThread, hj, CallerPoint.pending, same,
          Function.update_of_ne (Ne.symm same)]
  | signalNobody j hj | signalWaiter j _ hj | beginFlush j hj | leaveFlush j _ hj
  | beginDestroy j hj | destroyLocked j hj | signalAll j hj | join j hj =>
      simpa [begunBy, queuedBy, ofThread] using moved hj rfl rfl
  | flushParks j _ may | flushReturns j _ may =>
      obtain ⟨hj, _⟩ | ⟨hj, _⟩ := may <;>
        simpa [begunBy, queuedBy, ofThread] using moved hj rfl rfl
  | enter | relock | consumerReturns | spurious =>
      simp [begunBy, queuedBy, ofThread, State.loopHead]

/-- The items pushed are those queued along the history; with the one it has in hand they are the
items each thread has called `Push` with. -/
theorem queued_of_execution {h : List (State ι T × Action ι T)}
    (run : (machine ι T limit).Execution h s) :
    s.pushed = (queued h).map Prod.snd ∧
      ∀ i, ofThread i (queued h) ++ (s.callers i).pending = begun i h := by
  induction run with
  | start =>
      simp [queued, begun, ofThread, machine, init, CallerPoint.pending]
  | @next h s s' a prior hs ih =>
      obtain ⟨pushed, order⟩ := ih
      constructor
      · rw [pushed_step hs, pushed]
        simp [queued]
      · intro i
        have split : ofThread i (queued (h ++ [(s, a)])) =
            ofThread i (queued h) ++ ofThread i (queuedBy s a) := by
          rw [← ofThread_append]
          simp [queued]
        rw [split, List.append_assoc, ← pending_step hs i, ← List.append_assoc, order i]
        simp [begun]

/-- Whatever the interleaving, the batches handed to the consumer and the queue hold the items of
every thread in the order of its calls of `Push`, each once; only the item of a call that has not
come to its critical section is missing. -/
theorem pushes_in_program_order {h : List (State ι T × Action ι T)}
    (run : (machine ι T limit).Execution h s) :
    s.handed.flatten ++ s.queue = (queued h).map Prod.snd ∧
      ∀ i, ofThread i (queued h) ++ (s.callers i).pending = begun i h := by
  obtain ⟨pushed, order⟩ := queued_of_execution run
  exact ⟨(delivery_of_reachable ⟨h, run⟩).conserved.trans pushed, order⟩

/-- Two threads call `Push`, and the one that called last comes to its critical section first. -/
theorem pushes_in_program_order_sample :
    ∃ h s, (machine Bool Nat 0).Execution h s ∧ s.queue = [8, 7] ∧
      ofThread true (queued h) = [7] ∧ ofThread false (queued h) = [8] := by
  have run : (machine Bool Nat 0).Execution _ _ :=
    .next (a := .pushLocked true) (.next (a := .pushLocked false)
      (.next (a := .beginPush false 8) (.next (a := .beginPush true 7) .start rfl) rfl) rfl) rfl
  have order := (pushes_in_program_order run).2
  exact ⟨_, _, run, rfl, (List.append_nil _).symm.trans (order true),
    (List.append_nil _).symm.trans (order false)⟩

end

end Logrin.Batcher
