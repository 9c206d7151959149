import Logrin.BatcherDelivery

/-!
Whether the worker of a batcher can miss that its queue is not empty.

The worker and the `Flush` callers wait on one condition variable, and the `Signal` of a
`Push` wakes one waiter only. The steps that keep the wake-up are characterised exactly:
all but a `Signal` that is the last one due and picks a `Flush` caller.
-/

namespace Logrin.Batcher
open Logrin.Library

universe u v
variable {ι : Type u} {T : Type v}

/-- A `Push` or destructor call that has begun and has its `Signal` or `SignalAll`
still to issue. -/
def CallerPoint.SignalDue : CallerPoint T → Prop
  | .pushing _ | .signalling | .destroying | .signallingAll => True
  | _ => False

instance (p : CallerPoint T) : Decidable p.SignalDue := by
  cases p <;> simp only [CallerPoint.SignalDue] <;> infer_instance

/-- A worker inside `Wait` with work to do has been chosen to wake, or will be signalled
by a call in progress. -/
def WakeupKept (s : State ι T) : Prop :=
  s.queue ≠ [] → s.worker = .waiting →
    .worker ∉ s.waiters ∨ ∃ i, (s.callers i).SignalDue

/-- A `Signal` issued while the worker is parked on a non-empty queue, with no other
call left to signal, wakes the worker. Nothing is asked of other steps. -/
def SignalServes (s : State ι T) : Action ι T → Prop
  | .signal i (some w) =>
      s.queue ≠ [] → s.worker = .waiting → .worker ∈ s.waiters →
        (∀ j, j ≠ i → ¬ (s.callers j).SignalDue) → w = .worker
  | _ => True

/-- Waking waiters, or adding `Flush` callers to them, keeps the worker's wake-up. -/
theorem WakeupKept.of_waiters {s : State ι T} {waiters : Finset (Waiter ι)} (inv : WakeupKept s)
    (h : .worker ∈ waiters → .worker ∈ s.waiters) :
    WakeupKept { s with waiters := waiters } := by
  intro busy parked
  exact (inv busy parked).imp_left (mt h)

/-- A caller that can acquire the mutex inside `Flush` owes no signal. -/
theorem State.MayFlush.not_signalDue {s : State ι T} {i : ι} {seen : Nat}
    (may : s.MayFlush i seen) :
    ¬ (s.callers i).SignalDue := by
  obtain ⟨hi, _⟩ | ⟨hi, _⟩ := may <;> simp [hi, CallerPoint.SignalDue]

section
variable [DecidableEq ι] {limit : Nat} {s s' : State ι T} {a : Action ι T}

/-- Moving a caller that owes no signal takes no signal away. -/
theorem signalDue_moveCaller {i : ι} {p : CallerPoint T} (h : ¬ (s.callers i).SignalDue)
    (due : ∃ j, (s.callers j).SignalDue) : ∃ j, ((s.moveCaller i p).callers j).SignalDue := by
  obtain ⟨j, hj⟩ := due
  have hji : j ≠ i := fun same => h (same ▸ hj)
  exact ⟨j, by simpa [Function.update_of_ne hji] using hj⟩

theorem WakeupKept.moveCaller {i : ι} {p : CallerPoint T} (inv : WakeupKept s)
    (h : ¬ (s.callers i).SignalDue) : WakeupKept (s.moveCaller i p) := by
  intro busy parked
  exact (inv busy parked).imp_right (signalDue_moveCaller h)

theorem wakeupKept_loopHead : WakeupKept (s.loopHead limit) := by
  intro busy parked
  simp only [State.loopHead_toCore] at busy parked
  obtain ⟨empty, _, h⟩ | ⟨_, _, h⟩ | ⟨_, _, _, _, _, h⟩ :=
    Core.loopHead_cases limit s.toCore
  · rw [h] at busy
    exact absurd empty busy
  · rw [h] at parked
    contradiction
  · rw [h] at parked
    contradiction

theorem wakeupKept_signal (i : ι) (w : Waiter ι) :
    WakeupKept { s.moveCaller i .idle with waiters := s.waiters.erase w } ↔
      SignalServes s (.signal i (some w)) := by
  constructor
  · intro kept busy parked asleep nobody
    by_contra other
    obtain woken | ⟨j, hj⟩ := kept busy parked
    · exact woken (Finset.mem_erase.mpr ⟨Ne.symm other, asleep⟩)
    · by_cases hji : j = i
      · simp [hji, CallerPoint.SignalDue] at hj
      · simp only [State.moveCaller_callers, Function.update_of_ne hji] at hj
        exact nobody j hji hj
  · intro serves busy parked
    by_cases asleep : .worker ∈ s.waiters
    · by_cases nobody : ∀ j, j ≠ i → ¬ (s.callers j).SignalDue
      · exact Or.inl (by simp [serves busy parked asleep nobody])
      · push Not at nobody
        obtain ⟨j, hji, hj⟩ := nobody
        exact Or.inr ⟨j, by simpa [Function.update_of_ne hji] using hj⟩
    · exact Or.inl fun h => asleep (Finset.mem_of_mem_erase h)

theorem wakeupKept_step (inv : WakeupKept s) (hs : step limit s a = some s') :
    WakeupKept s' ↔ SignalServes s a := by
  cases steps_of_step hs with
  | signalWaiter i w => exact wakeupKept_signal i w
  | beginPush i _ hi | beginFlush i hi | leaveFlush i _ hi | join i hi =>
      exact iff_of_true (inv.moveCaller (by simp [hi, CallerPoint.SignalDue])) trivial
  | beginDestroy i hi =>
      exact iff_of_true (inv.moveCaller (by simp [hi, CallerPoint.SignalDue])) trivial
  | pushLocked i =>
      exact iff_of_true (fun _ _ => Or.inr ⟨i, by simp [CallerPoint.SignalDue]⟩) trivial
  | destroyLocked i =>
      exact iff_of_true (fun _ _ => Or.inr ⟨i, by simp [CallerPoint.SignalDue]⟩) trivial
  | signalNobody i _ empty =>
      exact iff_of_true (fun _ _ => Or.inl (by simp [empty])) trivial
  | signalAll i => exact iff_of_true (fun _ _ => Or.inl (by simp)) trivial
  | flushParks i seen may =>
      exact iff_of_true ((inv.moveCaller may.not_signalDue).of_waiters (by simp)) trivial
  | flushReturns i seen may => exact iff_of_true (inv.moveCaller may.not_signalDue) trivial
  | enter => exact iff_of_true wakeupKept_loopHead trivial
  | relock => exact iff_of_true wakeupKept_loopHead trivial
  | consumerReturns => exact iff_of_true (fun _ parked => by simp at parked) trivial
  | spurious w =>
      exact iff_of_true (inv.of_waiters Finset.mem_of_mem_erase) trivial

/-- Along any interleaving the wake-up is kept in every state if and only if no `Signal`
that is the last one due picks a `Flush` caller while the worker is parked on a
non-empty queue. -/
theorem wakeup_kept_iff_signals_serve {h : List (State ι T × Action ι T)}
    (run : (machine ι T limit).Execution h s) :
    ((∀ x ∈ h, WakeupKept x.1) ∧ WakeupKept s) ↔ ∀ x ∈ h, SignalServes x.1 x.2 :=
  run.always_iff_guarded (fun busy => absurd rfl busy) fun _ _ _ => wakeupKept_step

/-- The schedule that loses the wake-up: a `Flush` caller parks between the push and
its signal, and the signal picks that caller. -/
def stolenSignal (pusher flusher : ι) : List (Action ι Nat) :=
  [.workerLocked, .beginPush pusher 7, .pushLocked pusher, .beginFlush flusher,
    .flushLocked flusher, .signal pusher (some (.caller flusher))]

theorem wakeup_not_always_kept :
    ¬ ∀ (limit : Nat) (s : State (Fin 2) Nat),
      (machine (Fin 2) Nat limit).Reachable s → WakeupKept s := by
  intro always
  have kept := always 0 _ (Machine.reachable_of_run (stolenSignal 0 1) rfl)
  revert kept
  unfold WakeupKept
  decide

/-- The same schedule with the signal given to the worker. -/
theorem wakeup_kept_when_worker_signalled :
    ∃ s, (machine (Fin 2) Nat 0).run init
      [.workerLocked, .beginPush 0 7, .pushLocked 0, .signal 0 (some .worker)] = some s ∧
      s.queue = [7] ∧ WakeupKept s := by
  have run : (machine (Fin 2) Nat 0).Execution _ _ :=
    .next (a := .signal 0 (some .worker)) (.next (a := .pushLocked 0)
      (.next (a := .beginPush 0 7) (.next (a := .workerLocked) .start rfl) rfl) rfl) rfl
  have served := (wakeup_kept_iff_signals_serve run).mpr
  refine ⟨_, rfl, rfl, (served ?_).2⟩
  simp [SignalServes]

theorem no_signalDue_moveCaller {i : ι} {p : CallerPoint T}
    (nobody : ∀ j, ¬ (s.callers j).SignalDue) (hp : ¬ p.SignalDue) (j : ι) :
    ¬ ((s.moveCaller i p).callers j).SignalDue := by
  by_cases hji : j = i
  · simpa [hji] using hp
  · simpa [Function.update_of_ne hji] using nobody j

/-- A lost wake-up is for good: no call in progress, no step of the worker and no wake-up
of another waiter brings it back, so a `Flush` caller on the queue stays there. -/
theorem lost_wakeup_persists (lost : ¬ WakeupKept s) (hs : step limit s a = some s')
    (no_push : ∀ i item, a ≠ .beginPush i item) (no_destroy : ∀ i, a ≠ .beginDestroy i)
    (no_spurious : a ≠ .spurious .worker) : ¬ WakeupKept s' := by
  simp only [WakeupKept, Classical.not_imp, not_or, not_not, not_exists] at lost ⊢
  obtain ⟨busy, parked, asleep, nobody⟩ := lost
  cases steps_of_step hs with
  | beginPush i item => exact absurd rfl (no_push i item)
  | beginDestroy i => exact absurd rfl (no_destroy i)
  | pushLocked i _ hi | signalNobody i hi | signalWaiter i _ hi | destroyLocked i hi
  | signalAll i hi => exact absurd (by simp [hi, CallerPoint.SignalDue]) (nobody i)
  | beginFlush | leaveFlush | join =>
      exact ⟨busy, parked, asleep,
        no_signalDue_moveCaller nobody (by simp [CallerPoint.SignalDue])⟩
  | flushParks =>
      exact ⟨busy, parked, Finset.mem_insert_of_mem asleep,
        no_signalDue_moveCaller nobody (by simp [CallerPoint.SignalDue])⟩
  | flushReturns _ _ _ empty => exact absurd empty busy
  | enter hw =>
      obtain hw | ⟨_, awake⟩ := hw
      · simp [parked] at hw
      · exact absurd asleep awake
  | relock hw => simp [parked] at hw
  | consumerReturns _ hw => simp [parked] at hw
  | spurious w =>
      have other : .worker ≠ w := fun same => no_spurious (congrArg Action.spurious same.symm)
      exact ⟨busy, parked, Finset.mem_erase.mpr ⟨other, asleep⟩, nobody⟩

end

end Logrin.Batcher
