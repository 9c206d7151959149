import Logrin.BatcherProgress
import Logrin.BatcherWakeup

/-!
What becomes of the items and of the `Flush` callers of a batcher into which nothing is pushed
any more: whether the worker's wake-up was lost decides it.
-/

namespace Logrin.Batcher
open Logrin.Library

universe u v
variable {ι : Type u} {T : Type v}

/-- Nothing is queued, in flight or about to be pushed. -/
structure Drained (s : State ι T) : Prop where
  queue : s.queue = []
  idle : s.processing = false
  nobody : ∀ i item, s.callers i ≠ .pushing item

/-- Somebody is ready as long as there is work and the worker's wake-up is not lost. -/
theorem ready_of_undrained {limit : Nat} {s : State ι T} (inv : Delivery limit s.toCore)
    (alive : s.destroyMark = none) (kept : WakeupKept s) (undrained : ¬ Drained s) :
    ∃ t, Ready s t := by
  have worker (h : s.worker ≠ .exited) (awake : s.worker ≠ .waiting) : ∃ t, Ready s t :=
    ⟨.worker, h, fun waiting => absurd waiting awake⟩
  by_cases pusher : ∃ i item, s.callers i = .pushing item
  · obtain ⟨i, item, hi⟩ := pusher
    exact ⟨.caller i, by simp [Ready, hi, CallerPoint.weight]⟩
  by_cases busy : s.processing = true
  · obtain ⟨batch, hw⟩ | hw := inv.processing.mp busy <;> exact worker (by simp [hw]) (by simp [hw])
  have queued : s.queue ≠ [] := by
    intro empty
    exact undrained ⟨empty, eq_false_of_ne_true busy, fun i item hi => pusher ⟨i, item, hi⟩⟩
  cases hw : s.worker with
  | start | consuming | consumed => exact worker (by simp [hw]) (by simp [hw])
  | exited =>
      obtain ⟨e, he⟩ := inv.left hw
      obtain ⟨_, _, d, hd, _⟩ := inv.exited e he
      simp [alive] at hd
  | waiting =>
      obtain awake | ⟨i, due⟩ := kept queued hw
      · exact ⟨.worker, by simp [hw], fun _ => ⟨awake, Or.inl queued⟩⟩
      · refine ⟨.caller i, ?_⟩
        cases hi : s.callers i <;> simp [hi, CallerPoint.SignalDue] at due
        all_goals simp [Ready, hi, CallerPoint.weight]

/-- Inside `Flush`, before the caller has seen the batcher idle. -/
def CallerPoint.InFlush : CallerPoint T → Prop
  | .flushing | .waiting _ => True
  | _ => False

/-- Inside a `Flush` that has seen, or will see, at least `n` items pushed. -/
def CallerPoint.Flushes (n : Nat) : CallerPoint T → Prop
  | .flushing => True
  | .waiting seen | .flushed seen => n ≤ seen
  | _ => False

section
variable [DecidableEq ι] {limit : Nat} {s s' : State ι T} {a : Action ι T}

theorem Core.loopHead_empty (limit : Nat) {c : Core T} (empty : c.queue = []) :
    (c.loopHead limit).queue = [] ∧ (c.loopHead limit).processing = c.processing := by
  obtain ⟨_, _, h⟩ | ⟨_, _, h⟩ | ⟨batch, rest, nonempty, split, _, _⟩ := loopHead_cases limit c
  · exact h ▸ ⟨empty, rfl⟩
  · exact h ▸ ⟨empty, rfl⟩
  · rw [empty] at split
    exact absurd (List.append_eq_nil_iff.mp split).1 nonempty

theorem drained_step (hs : step limit s a = some s') (h : ¬ a.Begins) (inv : Drained s) :
    Drained s' := by
  have moved {i : ι} {p : CallerPoint T} (hp : ∀ item, p ≠ .pushing item) :
      Drained (s.moveCaller i p) :=
    ⟨inv.queue, inv.idle, fun j item hj => inv.nobody j item (point_before_update hj (hp item))⟩
  cases steps_of_step hs with
  | beginPush | beginDestroy => exact absurd trivial h
  | pushLocked i item hi => exact absurd hi (inv.nobody i item)
  | signalNobody | beginFlush | flushReturns | leaveFlush | join => exact moved (by simp)
  | signalWaiter i => exact { moved (i := i) (p := .idle) (by simp) with }
  | flushParks i seen => exact { moved (i := i) (p := .waiting seen) (by simp) with }
  | destroyLocked i => exact { moved (i := i) (p := .signallingAll) (by simp) with }
  | signalAll i => exact { moved (i := i) (p := .joining) (by simp) with }
  | enter =>
      obtain ⟨queue, same⟩ := Core.loopHead_empty limit inv.queue
      exact ⟨queue, same.trans inv.idle, inv.nobody⟩
  | relock =>
      obtain ⟨queue, same⟩ :=
        Core.loopHead_empty limit (c := { s.toCore with processing := false }) inv.queue
      exact ⟨queue, same, inv.nobody⟩
  | consumerReturns => exact ⟨inv.queue, inv.idle, inv.nobody⟩
  | spurious => exact ⟨inv.queue, inv.idle, inv.nobody⟩

section Quiet
variable {S : Schedule (machine ι T limit)} {n : Nat}

/-- From some time on no `Push` and no destruction begins, the batcher is alive, and the worker
wakes up only when it is told to. -/
structure Quiet (S : Schedule (machine ι T limit)) (n : Nat) : Prop where
  begins : ∀ m a, n ≤ m → S.label m = some a → ¬ a.Begins
  spurious : ∀ m, n ≤ m → S.label m ≠ some (.spurious .worker)
  alive : (S.state n).destroyMark = none

theorem Quiet.still_alive (quiet : Quiet S n) : ∀ m, n ≤ m → (S.state m).destroyMark = none := by
  apply Schedule.always_of_kept (P := fun s : State ι T => s.destroyMark = none) quiet.alive
  intro m a le ha alive
  have calm := quiet.begins m a le ha
  have hs : step limit (S.state m) a = some (S.state (m + 1)) := Schedule.step_of_label ha
  generalize S.state (m + 1) = after at hs
  cases steps_of_step hs with
  | beginDestroy => exact absurd trivial calm
  | enter | relock =>
      rw [State.loopHead_toCore, (Core.loopHead_history _ _).2.2]
      exact alive
  | beginPush | pushLocked | signalNobody | signalWaiter | beginFlush | flushParks
  | flushReturns | leaveFlush | destroyLocked | signalAll | join | consumerReturns | spurious =>
      exact alive

theorem Quiet.lost_for_ever (quiet : Quiet S n) {m : Nat} (le : n ≤ m)
    (lost : ¬ WakeupKept (S.state m)) : ∀ k, m ≤ k → ¬ WakeupKept (S.state k) := by
  apply Schedule.always_of_kept (P := fun s : State ι T => ¬ WakeupKept s) lost
  intro k a lek ha lost
  have later : n ≤ k := Nat.le_trans le lek
  apply lost_wakeup_persists lost (Schedule.step_of_label ha)
  · exact fun i item same => quiet.begins k a later ha (same ▸ trivial)
  · exact fun i same => quiet.begins k a later ha (same ▸ trivial)
  · exact fun same => quiet.spurious k later (same ▸ ha)

theorem Quiet.drains (quiet : Quiet S n) (fair : ∀ t, FairThread S t)
    (kept : ∀ m, n ≤ m → WakeupKept (S.state m)) :
    ∃ m, n ≤ m ∧ ∀ k, m ≤ k → Drained (S.state k) := by
  obtain ⟨m, le, drained⟩ : ∃ m, n ≤ m ∧ Drained (S.state m) := by
    apply eventually_of_ready (S := S) Drained quiet.begins
    intro m le undrained
    obtain ⟨t, ready⟩ := ready_of_undrained
      (delivery_of_reachable (Schedule.reachable_state m)) (quiet.still_alive m le) (kept m le)
      undrained
    exact ⟨t, fair t, ready⟩
  refine ⟨m, le, Schedule.always_of_kept drained ?_⟩
  intro k a lek ha hk
  exact drained_step (Schedule.step_of_label ha)
    (quiet.begins k a (Nat.le_trans le lek) ha) hk

/-- A batcher that drains for good has lost no wake-up. -/
theorem Quiet.kept_of_drains (quiet : Quiet S n) {d : Nat}
    (empty : ∀ k, d ≤ k → (S.state k).queue = []) (m : Nat) (le : n ≤ m) :
    WakeupKept (S.state m) := by
  by_contra lost
  apply quiet.lost_for_ever le lost (max m d) (Nat.le_max_left _ _)
  exact fun queued => absurd (empty _ (Nat.le_max_right _ _)) queued

/-- Once no further `Push` begins, a fairly scheduled batcher consumes all that was pushed, and
for good, exactly when the worker's wake-up is never lost. -/
theorem drains_iff_wakeup_kept (fair : ∀ t, FairThread S t) (quiet : Quiet S n) :
    (∃ m, n ≤ m ∧ ∀ k, m ≤ k →
        (S.state k).queue = [] ∧ (S.state k).returned.flatten = (S.state k).pushed) ↔
      ∀ m, n ≤ m → WakeupKept (S.state m) := by
  constructor
  · intro drains
    obtain ⟨_, _, empty⟩ := drains
    exact quiet.kept_of_drains fun k le => (empty k le).1
  · intro kept
    obtain ⟨m, le, drained⟩ := quiet.drains fair kept
    refine ⟨m, le, fun k lek => ?_⟩
    have inv := delivery_of_reachable (Schedule.reachable_state (S := S) k)
    exact ⟨(drained k lek).queue, inv.all_returned (drained k lek).queue (drained k lek).idle⟩

/-- A caller inside `Flush` stays there until a step of its own finds the batcher idle. -/
theorem inFlush_step (hs : step limit s a = some s') {i : ι} (h : (s.callers i).InFlush) :
    (s'.callers i).InFlush ∨
      a = .flushLocked i ∧ s.queue = [] ∧ s.processing = false ∧
        ∃ seen, s'.callers i = .flushed seen := by
  have moved {j : ι} {p : CallerPoint T} (hj : ¬ (s.callers j).InFlush ∨ p.InFlush) :
      ((s.moveCaller j p).callers i).InFlush :=
    point_moveCaller h hj
  cases steps_of_step hs with
  | beginPush j _ hj | pushLocked j _ hj | signalNobody j hj | signalWaiter j _ hj
  | beginFlush j hj | leaveFlush j _ hj | beginDestroy j hj | destroyLocked j hj | signalAll j hj
  | join j hj =>
      exact Or.inl (moved (Or.inl (by simp [hj, CallerPoint.InFlush])))
  | flushParks => exact Or.inl (moved (Or.inr trivial))
  | flushReturns j seen may empty idle =>
      by_cases same : i = j
      · subst same
        exact Or.inr ⟨rfl, empty, idle, seen, by simp⟩
      · exact Or.inl (by simpa [Function.update_of_ne same] using h)
  | enter | relock | consumerReturns | spurious => exact Or.inl h

/-- With `n` items pushed, a caller inside such a `Flush` stays there until it returns. -/
theorem flushes_step (hs : step limit s a = some s') {i : ι} {n : Nat}
    (h : (s.callers i).Flushes n) (enough : n ≤ s.pushed.length) :
    (s'.callers i).Flushes n ∨ ∃ seen, n ≤ seen ∧ s.callers i = .flushed seen := by
  have moved {j : ι} {p : CallerPoint T} (hj : ¬ (s.callers j).Flushes n ∨ p.Flushes n) :
      ((s.moveCaller j p).callers i).Flushes n :=
    point_moveCaller h hj
  cases steps_of_step hs with
  | beginPush j _ hj | pushLocked j _ hj | signalNobody j hj | signalWaiter j _ hj
  | beginDestroy j hj | destroyLocked j hj | signalAll j hj | join j hj =>
      exact Or.inl (moved (Or.inl (by simp [hj, CallerPoint.Flushes])))
  | beginFlush => exact Or.inl (moved (Or.inr trivial))
  | flushParks j seen may | flushReturns j seen may =>
      refine Or.inl (moved ?_)
      obtain ⟨_, first⟩ | ⟨again, _⟩ := may
      · exact Or.inr (first ▸ enough)
      · rw [again]
        exact em' _
  | leaveFlush j seen hj =>
      by_cases le : (s.callers j).Flushes n
      · by_cases same : i = j
        · subst same
          rw [hj] at le
          exact Or.inr ⟨seen, le, hj⟩
        · exact Or.inl (by simpa [Function.update_of_ne same] using h)
      · exact Or.inl (moved (Or.inl le))
  | enter | relock | consumerReturns | spurious => exact Or.inl h

/-- A `Flush` caller is asleep only while there is something to wait for. -/
theorem asleep_with_cause (h : (machine ι T limit).Reachable s) (i : ι)
    (asleep : .caller i ∈ s.waiters) : s.queue ≠ [] ∨ s.processing = true := by
  refine h.invariant (I := fun s => ∀ i, .caller i ∈ s.waiters →
    s.queue ≠ [] ∨ s.processing = true) ?_ ?_ i asleep
  · intro i asleep
    simp [machine, init] at asleep
  · intro s a s' _ inv hs j hj
    have head {t : State ι T} (waiters : .caller j ∈ (t.loopHead limit).waiters)
        (cause : .caller j ∈ t.waiters → t.queue ≠ [] ∨ t.processing = true) :
        (t.loopHead limit).queue ≠ [] ∨ (t.loopHead limit).processing = true := by
      have asleep : .caller j ∈ t.waiters := by
        simp only [State.loopHead] at waiters
        split at waiters <;> simpa using waiters
      rw [State.loopHead_toCore]
      obtain ⟨empty, _, e⟩ | ⟨empty, _, e⟩ | ⟨_, _, _, _, _, e⟩ :=
        Core.loopHead_cases limit t.toCore
      · exact e ▸ cause asleep
      · exact e ▸ cause asleep
      · exact e ▸ Or.inr rfl
    cases steps_of_step hs with
    | beginPush | signalNobody | beginFlush | flushReturns | leaveFlush | beginDestroy
    | destroyLocked | join | consumerReturns => exact inv j hj
    | pushLocked => exact Or.inl (by simp)
    | signalWaiter | spurious => exact inv j (Finset.mem_of_mem_erase hj)
    | flushParks i seen may busy => exact busy
    | signalAll => simp at hj
    | enter => exact head hj (inv j)
    | relock => exact head hj (by simp)

def drainingRun (pusher flusher : ι) : List (Action ι Nat) :=
  [.workerLocked, .beginPush pusher 7, .pushLocked pusher, .beginFlush flusher,
    .flushLocked flusher, .signal pusher (some .worker), .workerLocked, .consumerReturns,
    .workerLocked, .flushLocked flusher, .leaveFlush flusher]

theorem drainingRun_ends : ∃ s, (machine Bool Nat 1).run init (drainingRun true false) = some s ∧
    (∀ i, s.callers i = .idle) ∧ (s.worker = .waiting ∧ .worker ∈ s.waiters) ∧
      s.queue = [] ∧ s.returned.flatten = s.pushed :=
  ⟨_, rfl, by decide, ⟨rfl, by decide⟩, rfl, rfl⟩

theorem drainingRun_fair {s : State Bool Nat}
    (hr : (machine Bool Nat 1).run init (drainingRun true false) = some s)
    (callers : ∀ i, s.callers i = .idle) (worker : s.worker = .waiting ∧ .worker ∈ s.waiters)
    (t : Waiter Bool) : FairThread (Schedule.ofRun (drainingRun true false) hr) t :=
  Schedule.fairTo_ofRun hr (stuck_of_settled (fun i => Or.inl (callers i)) (Or.inr worker) t)

theorem drainingRun_quiet {s : State Bool Nat}
    (hr : (machine Bool Nat 1).run init (drainingRun true false) = some s) :
    Quiet (Schedule.ofRun (drainingRun true false) hr) 2 where
  begins m a le ha := by
    have later := Schedule.mem_of_ofRun_label le ha
    simp [drainingRun] at later
    obtain rfl | rfl | rfl | rfl | rfl | rfl | rfl | rfl | rfl := later <;> exact id
  spurious m le ha := by
    have later := Schedule.mem_of_ofRun_label le ha
    simp [drainingRun] at later
  alive := rfl

theorem drains_iff_wakeup_kept_sample : ∃ S : Schedule (machine Bool Nat 1),
    S.label 1 = some (.beginPush true 7) ∧ ∀ m, 2 ≤ m → WakeupKept (S.state m) := by
  obtain ⟨last, hr, callers, worker, settled⟩ := drainingRun_ends
  have drains :=
    drains_iff_wakeup_kept (drainingRun_fair hr callers worker) (drainingRun_quiet hr)
  refine ⟨_, rfl, drains.mp ⟨11, by omega, fun k le => ?_⟩⟩
  have there : (Schedule.ofRun (drainingRun true false) hr).state k = last :=
    Schedule.trail_last hr le
  rw [there]
  exact settled

theorem Quiet.in_flush_for_ever (quiet : Quiet S n) {m : Nat} (le : n ≤ m)
    (lost : ¬ WakeupKept (S.state m)) {i : ι} (hi : ((S.state m).callers i).InFlush) :
    ∀ k, m ≤ k → ((S.state k).callers i).InFlush := by
  apply Schedule.always_of_kept (P := fun s : State ι T => (s.callers i).InFlush) hi
  intro k a lek ha hk
  have busy : (S.state k).queue ≠ [] := by
    intro empty
    exact quiet.lost_for_ever le lost k lek (fun queued => absurd empty queued)
  obtain stays | ⟨_, empty, _⟩ := inFlush_step (Schedule.step_of_label ha) hk
  · exact stays
  · exact absurd empty busy

theorem Quiet.flush_returns (quiet : Quiet S n) (fair : ∀ t, FairThread S t)
    (kept : ∀ m, n ≤ m → WakeupKept (S.state m)) {m : Nat} {i : ι}
    (hi : ((S.state m).callers i).InFlush) :
    ∃ k seen, m ≤ k ∧ (S.state k).callers i = .flushed seen := by
  by_contra never
  have inside : ∀ k, m ≤ k → ((S.state k).callers i).InFlush := by
    apply Schedule.always_of_kept (P := fun s : State ι T => (s.callers i).InFlush) hi
    intro k a le ha hk
    obtain stays | ⟨_, _, _, seen, returned⟩ := inFlush_step (Schedule.step_of_label ha) hk
    · exact stays
    · exact absurd ⟨k + 1, seen, Nat.le_succ_of_le le, returned⟩ never
  obtain ⟨d, _, drained⟩ := quiet.drains fair kept
  have enabled (k : Nat) (le : max m d ≤ k) :
      ∃ a, a.continues = some (.caller i) ∧ (step limit (S.state k) a).isSome := by
    have awake : .caller i ∉ (S.state k).waiters := by
      intro asleep
      have idle := drained k (Nat.le_trans (Nat.le_max_right _ _) le)
      have cause := asleep_with_cause (Schedule.reachable_state (S := S) k) i asleep
      simp [idle.queue, idle.idle] at cause
    have here := inside k (Nat.le_trans (Nat.le_max_left _ _) le)
    refine ⟨.flushLocked i, rfl, ?_⟩
    cases hk : (S.state k).callers i <;> simp [hk, CallerPoint.InFlush] at here
    all_goals simp [step, flushStep, hk, awake]
  obtain ⟨k, a, le, ha, act⟩ := fair (.caller i) (max m d) enabled
  have here := inside k (Nat.le_trans (Nat.le_max_left _ _) le)
  have after := inside (k + 1) (Nat.le_succ_of_le (Nat.le_trans (Nat.le_max_left _ _) le))
  have idle := drained k (Nat.le_trans (Nat.le_max_right _ _) le)
  have hs : step limit (S.state k) a = some (S.state (k + 1)) := Schedule.step_of_label ha
  generalize S.state (k + 1) = later at hs after
  cases steps_of_step hs with
  | flushParks j _ _ busy => simp [idle.queue, idle.idle] at busy
  | flushReturns j =>
      cases act
      simp [CallerPoint.InFlush] at after
  | pushLocked j _ hj | signalNobody j hj | signalWaiter j _ hj | leaveFlush j _ hj
  | destroyLocked j hj | signalAll j hj | join j hj =>
      cases act
      simp [hj, CallerPoint.InFlush] at here
  | beginPush | beginFlush | beginDestroy | enter | relock | consumerReturns | spurious =>
      cases act

/-- In a fairly scheduled batcher into which no further `Push` begins, every call of `Flush`
returns if the worker's wake-up is never lost; once it is lost, no call of `Flush` that is inside
at that time returns ever. -/
theorem flush_returns_unless_lost (fair : ∀ t, FairThread S t) (quiet : Quiet S n) (i : ι) :
    ((∀ m, n ≤ m → WakeupKept (S.state m)) →
        ∀ m, ((S.state m).callers i).InFlush →
          ∃ k seen, m ≤ k ∧ (S.state k).callers i = .flushed seen) ∧
      ∀ m, n ≤ m → ¬ WakeupKept (S.state m) → ((S.state m).callers i).InFlush →
        ∀ k, m ≤ k → ((S.state k).callers i).InFlush :=
  ⟨fun kept _ hi => quiet.flush_returns fair kept hi,
    fun _ le lost hi => quiet.in_flush_for_ever le lost hi⟩

theorem flush_returns_sample : ∃ S : Schedule (machine Bool Nat 1),
    (S.state 5).callers false = .waiting 1 ∧
      ∃ k seen, 5 ≤ k ∧ (S.state k).callers false = .flushed seen := by
  obtain ⟨last, hr, callers, worker, empty, _⟩ := drainingRun_ends
  have kept := (drainingRun_quiet hr).kept_of_drains (d := 11) fun k le => by
    have there : (Schedule.ofRun (drainingRun true false) hr).state k = last :=
      Schedule.trail_last hr le
    rw [there]
    exact empty
  have returns := flush_returns_unless_lost (drainingRun_fair hr callers worker)
    (drainingRun_quiet hr) false
  exact ⟨_, rfl, returns.1 kept 5 trivial⟩

end Quiet

end

end Logrin.Batcher
