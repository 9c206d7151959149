import Logrin.BatcherProgress

/-!
The destructor of a batcher returns. `SignalAll` comes after `n_running` is cleared, so the
worker does not go to sleep again, and it leaves its loop once the queue is empty.
-/

namespace Logrin.Batcher
open Logrin.Library

universe u v
variable {ι : Type u} {T : Type v}

section
variable [DecidableEq ι] {limit : Nat} {s s' : State ι T} {a : Action ι T}

/-- The worker of a batcher whose destructor has come to `SignalAll` has been told to stop, and
after it is not asleep again. -/
structure Stopped (s : State ι T) : Prop where
  told : ∀ i, s.callers i = .signallingAll → s.running = false
  awake : ∀ i, s.callers i = .joining → s.running = false ∧ .worker ∉ s.waiters

theorem stopped_loopHead {awake : State ι T} (inv : Stopped s) (running : awake.running = s.running)
    (callers : awake.callers = s.callers)
    (waiters : .worker ∉ s.waiters → .worker ∉ awake.waiters) :
    Stopped (awake.loopHead limit) := by
  have same : (awake.loopHead limit).running = s.running := by
    rw [State.loopHead_toCore, ← running]
    obtain ⟨_, _, h⟩ | ⟨_, _, h⟩ | ⟨_, _, _, _, _, h⟩ := Core.loopHead_cases limit awake.toCore <;>
      rw [h]
  constructor
  · intro i hi
    exact same ▸ inv.told i (callers ▸ hi)
  · intro i hi
    obtain ⟨stopped, up⟩ := inv.awake i (callers ▸ hi)
    refine ⟨same ▸ stopped, ?_⟩
    simpa [State.loopHead, running, stopped] using waiters up

theorem stopped_of_reachable (h : (machine ι T limit).Reachable s) : Stopped s := by
  apply h.invariant (I := Stopped)
  · constructor <;> simp [machine, init]
  intro s a s' _ inv hs
  have moved {i : ι} {p : CallerPoint T} (told : p ≠ .signallingAll) (awake : p ≠ .joining) :
      Stopped (s.moveCaller i p) := by
    constructor
    · exact fun j hj => inv.told j (point_before_update hj told)
    · exact fun j hj => inv.awake j (point_before_update hj awake)
  cases steps_of_step hs with
  | beginPush | signalNobody | beginFlush | flushReturns | leaveFlush | join =>
      exact moved (by simp) (by simp)
  | beginDestroy i =>
      have kept : Stopped (s.moveCaller i .destroying) := moved (by simp) (by simp)
      exact ⟨kept.told, kept.awake⟩
  | pushLocked i item =>
      have kept : Stopped (s.moveCaller i .signalling) := moved (by simp) (by simp)
      exact ⟨kept.told, kept.awake⟩
  | signalWaiter i w =>
      have kept : Stopped (s.moveCaller i .idle) := moved (by simp) (by simp)
      exact ⟨kept.told, fun j hj => (kept.awake j hj).imp_right (mt Finset.mem_of_mem_erase)⟩
  | flushParks i seen =>
      have kept : Stopped (s.moveCaller i (.waiting seen)) := moved (by simp) (by simp)
      exact ⟨kept.told, fun j hj => (kept.awake j hj).imp_right (by simp)⟩
  | destroyLocked i =>
      constructor
      · exact fun _ _ => rfl
      · exact fun j hj => ⟨rfl, (inv.awake j (point_before_update hj (by simp))).2⟩
  | signalAll i hi =>
      have stopped := inv.told i hi
      exact ⟨fun _ _ => stopped, fun _ _ => ⟨stopped, by simp⟩⟩
  | enter => exact stopped_loopHead inv rfl rfl id
  | relock => exact stopped_loopHead inv rfl rfl (by simp)
  | consumerReturns => exact ⟨inv.told, inv.awake⟩
  | spurious w =>
      exact ⟨inv.told, fun j hj => (inv.awake j hj).imp_right (mt Finset.mem_of_mem_erase)⟩

def CallerPoint.Destroys : CallerPoint T → Prop
  | .destroying | .signallingAll | .joining | .destroyed => True
  | _ => False

theorem destroys_step (hs : step limit s a = some s') {i : ι} (h : (s.callers i).Destroys) :
    (s'.callers i).Destroys := by
  have moved {j : ι} {p : CallerPoint T} (hj : ¬ (s.callers j).Destroys ∨ p.Destroys) :
      ((s.moveCaller j p).callers i).Destroys :=
    point_moveCaller h hj
  cases steps_of_step hs with
  | beginPush j _ hj | pushLocked j _ hj | signalNobody j hj | signalWaiter j _ hj
  | beginFlush j hj | leaveFlush j _ hj =>
      exact moved (Or.inl (by simp [hj, CallerPoint.Destroys]))
  | flushParks j _ may | flushReturns j _ may =>
      apply moved
      obtain ⟨hj, _⟩ | ⟨hj, _⟩ := may <;> exact Or.inl (by simp [hj, CallerPoint.Destroys])
  | beginDestroy | destroyLocked | signalAll | join => exact moved (Or.inr trivial)
  | enter | relock | consumerReturns | spurious => exact h

/-- What was pushed stays pushed, and the destructor is called once. -/
theorem history_step (hs : step limit s a = some s') :
    s.pushed <+: s'.pushed ∧ ∀ d, s.destroyMark = some d → s'.destroyMark = some d := by
  cases steps_of_step hs with
  | pushLocked => exact ⟨List.prefix_append _ _, fun _ => id⟩
  | beginDestroy _ _ alive => exact ⟨List.prefix_rfl, fun d hd => by simp [alive] at hd⟩
  | enter | relock =>
      simp only [State.loopHead_toCore, Core.loopHead_history]
      exact ⟨List.prefix_rfl, fun _ => id⟩
  | beginPush | signalNobody | signalWaiter | beginFlush | flushParks | flushReturns
  | leaveFlush | destroyLocked | signalAll | join | consumerReturns | spurious =>
      exact ⟨List.prefix_rfl, fun _ => id⟩

theorem not_begins_of_marked (hs : step limit s a = some s') (h : s.destroyMark ≠ none) :
    ¬ a.Begins := by
  cases steps_of_step hs with
  | beginPush _ _ _ alive | beginDestroy _ _ alive => exact absurd alive h
  | pushLocked | signalNobody | signalWaiter | beginFlush | flushParks
  | flushReturns | leaveFlush | destroyLocked | signalAll | join | enter | relock
  | consumerReturns | spurious => exact id

section Called
variable {S : Schedule (machine ι T limit)} {i : ι} {n m : Nat}

/-- From its call on a destructor is at one of its program points, and its mark stands. -/
theorem since_called (called : S.label n = some (.beginDestroy i)) (lt : n < m) :
    ((S.state m).callers i).Destroys ∧ (S.state n).pushed <+: (S.state m).pushed ∧
      (S.state m).destroyMark = some (S.state n).pushed.length := by
  have begun : ((S.state (n + 1)).callers i).Destroys ∧
      (S.state n).pushed <+: (S.state (n + 1)).pushed ∧
      (S.state (n + 1)).destroyMark = some (S.state n).pushed.length := by
    have hs : step limit (S.state n) (.beginDestroy i) = some (S.state (n + 1)) :=
      Schedule.step_of_label called
    generalize S.state (n + 1) = after at hs
    cases steps_of_step hs
    simp [CallerPoint.Destroys]
  apply Schedule.always_of_kept (P := fun s : State ι T => (s.callers i).Destroys ∧
    (S.state n).pushed <+: s.pushed ∧ s.destroyMark = some (S.state n).pushed.length) begun _ m lt
  intro m a _ ha inside
  obtain ⟨more, once⟩ := history_step (Schedule.step_of_label ha)
  exact ⟨destroys_step (Schedule.step_of_label ha) inside.1, inside.2.1.trans more,
    once _ inside.2.2⟩

theorem destroyed_eventually (worker : FairThread S .worker) (caller : FairThread S (.caller i))
    (called : S.label n = some (.beginDestroy i)) :
    ∃ m, n < m ∧ (S.state m).callers i = .destroyed := by
  apply eventually_of_ready (S := S) (n := n + 1) (fun s => s.callers i = .destroyed)
  · intro m a le ha
    have marked := (since_called called le).2.2
    exact not_begins_of_marked (Schedule.step_of_label ha) (by simp [marked])
  · intro m le not_yet
    have here := (since_called called le).1
    have stopped := stopped_of_reachable (Schedule.reachable_state (S := S) m)
    cases hi : (S.state m).callers i with
    | destroying | signallingAll =>
        exact ⟨.caller i, caller, by simp [Ready, hi, CallerPoint.weight]⟩
    | joining =>
        by_cases exited : (S.state m).worker = .exited
        · exact ⟨.caller i, caller, by simp [Ready, hi, CallerPoint.weight, exited]⟩
        · obtain ⟨told, awake⟩ := stopped.awake i hi
          exact ⟨.worker, worker, exited, fun _ => ⟨awake, Or.inr told⟩⟩
    | destroyed => exact absurd hi not_yet
    | idle | pushing | signalling | flushing | waiting | flushed =>
        simp [hi, CallerPoint.Destroys] at here

/-- A destructor that has returned has seen the consumer return from all that had been pushed. -/
theorem returned_of_destroyed (called : S.label n = some (.beginDestroy i)) (lt : n < m)
    (destroyed : (S.state m).callers i = .destroyed) :
    (S.state m).worker = .exited ∧ (S.state n).pushed <+: (S.state m).returned.flatten := by
  have reachable := Schedule.reachable_state (S := S) m
  have exited := exited_of_destroyed reachable i destroyed
  have inv := delivery_of_reachable reachable
  refine ⟨exited, ?_⟩
  obtain ⟨_, pushed, mark⟩ := since_called called lt
  obtain ⟨e, he⟩ := inv.left exited
  obtain ⟨_, count, d, hd, enough⟩ := inv.exited e he
  have returned : (S.state m).returned = (S.state m).handed := by
    simpa [exited, WorkerPoint.batch] using inv.returned
  rw [mark, Option.some.injEq] at hd
  rw [returned]
  apply List.prefix_of_prefix_length_le pushed (inv.conserved ▸ List.prefix_append _ _)
  omega

end Called

/-- The destructor returns, whatever signals have been lost before, and the consumer has then
returned from all that had been pushed when it was called. Only the worker and the thread that
runs the destructor must not be passed over for ever. -/
theorem destructor_returns {S : Schedule (machine ι T limit)} {i : ι} {n : Nat}
    (worker : FairThread S .worker) (caller : FairThread S (.caller i))
    (called : S.label n = some (.beginDestroy i)) :
    ∃ m, n < m ∧ (S.state m).callers i = .destroyed ∧ (S.state m).worker = .exited ∧
      (S.state n).pushed <+: (S.state m).returned.flatten := by
  obtain ⟨m, lt, destroyed⟩ := destroyed_eventually worker caller called
  exact ⟨m, lt, destroyed, returned_of_destroyed called lt destroyed⟩

def destroyingRun (i : ι) : List (Action ι Nat) :=
  [.workerLocked, .beginPush i 7, .pushLocked i, .signal i (some .worker), .beginDestroy i,
    .workerLocked, .destroyLocked i, .signalAll i, .consumerReturns, .workerLocked, .join i]

theorem destroyingRun_ends : ∃ s, (machine Unit Nat 1).run init (destroyingRun ()) = some s ∧
    s.callers () = .destroyed ∧ s.worker = .exited :=
  ⟨_, rfl, rfl, rfl⟩

theorem destructor_returns_sample : ∃ S : Schedule (machine Unit Nat 1),
    S.label 4 = some (.beginDestroy ()) ∧
      ∃ m, 4 < m ∧ (S.state m).callers () = .destroyed ∧ [7] <+: (S.state m).returned.flatten := by
  obtain ⟨last, hr, callers, worker⟩ := destroyingRun_ends
  have fair (t : Waiter Unit) : FairThread (Schedule.ofRun (destroyingRun ()) hr) t :=
    Schedule.fairTo_ofRun hr (stuck_of_settled (fun _ => Or.inr callers) (Or.inl worker) t)
  obtain ⟨m, le, destroyed, _, all⟩ :=
    destructor_returns (n := 4) (fair .worker) (fair (.caller ())) rfl
  exact ⟨_, rfl, m, le, destroyed, all⟩

end

end Logrin.Batcher
