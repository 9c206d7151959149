import Logrin.BatcherDelivery
import Logrin.Library.Schedule
import Mathlib.Algebra.BigOperators.Group.Finset.Basic

/-!
How far a batcher has come, when no thread inside one of its functions is passed over for ever.

One weight counts the work that the queue, the worker and the calls in progress still have to
do. Every useful step of a thread lowers it, and only the beginning of a `Push` or of the
destructor raises it. Which thread can do something useful is changed by that thread alone.
-/

namespace Logrin.Batcher
open Logrin.Library

universe u v
variable {ι : Type u} {T : Type v}

/-- The thread that goes on with a call it is inside of; the worker is in one all along. -/
def Action.continues : Action ι T → Option (Waiter ι)
  | .pushLocked i | .signal i _ | .flushLocked i | .leaveFlush i | .destroyLocked i
  | .signalAll i | .join i => some (.caller i)
  | .workerLocked | .consumerReturns => some .worker
  | .beginPush _ _ | .beginFlush _ | .beginDestroy _ | .spurious _ => none

/-- A thread that can go on with its call for ever does so. -/
abbrev FairThread [DecidableEq ι] {limit : Nat} (S : Schedule (machine ι T limit))
    (t : Waiter ι) : Prop :=
  S.FairTo fun a => a.continues = some t

def WorkerPoint.weight : WorkerPoint T → Nat
  | .exited => 0
  | .waiting => 1
  | .start | .consumed => 2
  | .consuming _ => 3

def CallerPoint.weight : CallerPoint T → Nat
  | .signalling | .joining => 1
  | .signallingAll => 2
  | .destroying => 3
  | .pushing _ => 5
  | .idle | .flushing | .waiting _ | .flushed _ | .destroyed => 0

/-- The callers in `busy` are all that have a weight. -/
def Covers (busy : Finset ι) (s : State ι T) : Prop :=
  ∀ i, (s.callers i).weight ≠ 0 → i ∈ busy

def State.weight (busy : Finset ι) (s : State ι T) : Nat :=
  3 * s.queue.length + s.worker.weight + ∑ i ∈ busy, (s.callers i).weight

/-- The thread can do something useful, and nobody but itself can change that. -/
def Ready (s : State ι T) : Waiter ι → Prop
  | .worker =>
      s.worker ≠ .exited ∧
        (s.worker = .waiting → .worker ∉ s.waiters ∧ (s.queue ≠ [] ∨ s.running = false))
  | .caller i =>
      (s.callers i).weight ≠ 0 ∧ (s.callers i = .joining → s.worker = .exited)

/-- A caller that can acquire the mutex inside `Flush` has nothing of its own to do. -/
theorem State.MayFlush.weightless {s : State ι T} {i : ι} {seen : Nat} (h : s.MayFlush i seen) :
    (s.callers i).weight = 0 := by
  obtain ⟨hi, _⟩ | ⟨hi, _⟩ := h <;> simp [hi, CallerPoint.weight]

section
variable [DecidableEq ι] {limit : Nat} {s s' : State ι T} {a : Action ι T} {busy : Finset ι}

theorem covers_moveCaller {i : ι} {p : CallerPoint T} (covers : Covers busy s)
    (h : p.weight ≠ 0 → (s.callers i).weight ≠ 0) : Covers busy (s.moveCaller i p) := by
  intro j hj
  by_cases hji : j = i
  · subst hji
    simp only [State.moveCaller_callers, Function.update_self] at hj
    exact covers j (h hj)
  · simp only [State.moveCaller_callers, Function.update_of_ne hji] at hj
    exact covers j hj

/-- A move of a caller trades its weight. -/
theorem sum_moveCaller (covers : Covers busy s) (i : ι) {p : CallerPoint T}
    (h : p.weight ≠ 0 → (s.callers i).weight ≠ 0) :
    ∑ j ∈ busy, ((s.moveCaller i p).callers j).weight + (s.callers i).weight =
      ∑ j ∈ busy, (s.callers j).weight + p.weight := by
  by_cases hi : i ∈ busy
  · have rest : ∑ j ∈ busy.erase i, ((s.moveCaller i p).callers j).weight =
        ∑ j ∈ busy.erase i, (s.callers j).weight := by
      apply Finset.sum_congr rfl
      intro j hj
      rw [State.moveCaller_callers, Function.update_of_ne (Finset.ne_of_mem_erase hj)]
    have here : ((s.moveCaller i p).callers i).weight = p.weight := by simp
    rw [← Finset.add_sum_erase busy _ hi, ← Finset.add_sum_erase busy (fun j =>
      (s.callers j).weight) hi, rest, here]
    omega
  · have before : (s.callers i).weight = 0 := by
      by_contra h
      exact hi (covers i h)
    have after : p.weight = 0 := by
      by_contra h'
      exact h h' before
    rw [before, after]
    congr 1
    apply Finset.sum_congr rfl
    intro j hj
    have hji : j ≠ i := fun same => hi (same ▸ hj)
    rw [State.moveCaller_callers, Function.update_of_ne hji]

/-- A call begins that has work of its own to do. -/
def Action.Begins : Action ι T → Prop
  | .beginPush _ _ | .beginDestroy _ => True
  | _ => False

theorem covers_step (covers : Covers busy s) (hs : step limit s a = some s')
    (h : ¬ a.Begins) : Covers busy s' := by
  cases steps_of_step hs with
  | beginPush | beginDestroy => exact absurd trivial h
  | pushLocked i _ hi | signalNobody i hi | signalWaiter i _ hi | beginFlush i hi
  | leaveFlush i _ hi | destroyLocked i hi | signalAll i hi | join i hi =>
      exact covers_moveCaller covers (by simp [hi, CallerPoint.weight])
  | flushParks i seen | flushReturns i seen =>
      exact covers_moveCaller covers (by simp [CallerPoint.weight])
  | enter | relock | consumerReturns | spurious => exact covers

/-- Only finitely many calls are in progress at a time. -/
theorem exists_covers (h : (machine ι T limit).Reachable s) :
    ∃ busy : Finset ι, Covers busy s := by
  apply h.invariant (I := fun s => ∃ busy : Finset ι, Covers busy s)
  · exact ⟨∅, fun i hi => by simp [machine, init, CallerPoint.weight] at hi⟩
  · intro s a s' _ inv hs
    obtain ⟨busy, covers⟩ := inv
    have moved (i : ι) (p : CallerPoint T) : Covers (insert i busy) (s.moveCaller i p) := by
      intro j hj
      by_cases hji : j = i
      · exact hji ▸ Finset.mem_insert_self i busy
      · rw [State.moveCaller_callers, Function.update_of_ne hji] at hj
        exact Finset.mem_insert_of_mem (covers j hj)
    by_cases begins : a.Begins
    · cases steps_of_step hs with
      | beginPush i | beginDestroy i => exact ⟨insert i busy, moved i _⟩
      | pushLocked | signalNobody | signalWaiter | beginFlush | leaveFlush | destroyLocked
      | signalAll | join | flushParks | flushReturns | enter | relock | consumerReturns
      | spurious => contradiction
    · exact ⟨busy, covers_step covers hs begins⟩

/-- The head of the worker's loop leaves less to do than a worker that has just relocked, and
no more than one that waits; less again if there is anything to do. -/
theorem weight_loopHead (busy : Finset ι) (limit : Nat) (s : State ι T) :
    (s.loopHead limit).weight busy ≤
        3 * s.queue.length + 1 + ∑ i ∈ busy, (s.callers i).weight ∧
      (s.queue ≠ [] ∨ s.running = false →
        (s.loopHead limit).weight busy <
          3 * s.queue.length + 1 + ∑ i ∈ busy, (s.callers i).weight) := by
  have callers : (s.loopHead limit).callers = s.callers := rfl
  obtain ⟨empty, running, h⟩ | ⟨empty, stopped, h⟩ | ⟨batch, rest, nonempty, split, _, h⟩ :=
    Core.loopHead_cases limit s.toCore
  · simp only [State.weight, State.loopHead_toCore, callers, h, empty, running,
      WorkerPoint.weight]
    simp
  · simp only [State.weight, State.loopHead_toCore, callers, h, empty, WorkerPoint.weight]
    simp
  · have fewer : rest.length < s.queue.length := by
      have pos := List.length_pos_of_ne_nil nonempty
      rw [← split, List.length_append]
      omega
    simp only [State.weight, State.loopHead_toCore, callers, h, WorkerPoint.weight]
    constructor
    · omega
    · intro _
      omega

/-- The weight of a state after a move of a caller that puts items into the queue. -/
theorem weight_moveCaller (covers : Covers busy s) (i : ι) {p : CallerPoint T}
    (h : p.weight ≠ 0 → (s.callers i).weight ≠ 0) {items : List T}
    (moved : s'.callers = (s.moveCaller i p).callers) (worker : s'.worker = s.worker)
    (queue : s'.queue = s.queue ++ items) :
    s'.weight busy + (s.callers i).weight = s.weight busy + p.weight + 3 * items.length := by
  have trade := sum_moveCaller covers i h
  simp only [State.weight, moved, worker, queue, List.length_append]
  omega

theorem lighter_of_move (covers : Covers busy s) {i : ι} {p q : CallerPoint T}
    (hi : s.callers i = q) (items : List T) (less : p.weight + 3 * items.length < q.weight)
    (moved : s'.callers = (s.moveCaller i p).callers) (worker : s'.worker = s.worker)
    (queue : s'.queue = s.queue ++ items) : s'.weight busy < s.weight busy := by
  have heavy : (s.callers i).weight ≠ 0 := by
    rw [hi]
    omega
  have trade := weight_moveCaller covers i (fun _ => heavy) moved worker queue
  rw [hi] at trade
  omega

theorem level_of_move (covers : Covers busy s) {i : ι} {p : CallerPoint T}
    (before : (s.callers i).weight = 0) (after : p.weight = 0)
    (moved : s'.callers = (s.moveCaller i p).callers) (worker : s'.worker = s.worker)
    (queue : s'.queue = s.queue) : s'.weight busy = s.weight busy := by
  have trade := weight_moveCaller covers i (fun h => absurd after h) moved worker
    (queue.trans (List.append_nil _).symm)
  rw [before, after, List.length_nil] at trade
  omega

/-- No step but the beginning of a `Push` or of the destructor raises the weight, and what a
ready thread does lowers it. -/
theorem weight_step (covers : Covers busy s) (hs : step limit s a = some s')
    (h : ¬ a.Begins) :
    s'.weight busy ≤ s.weight busy ∧
      ∀ t, a.continues = some t → Ready s t → s'.weight busy < s.weight busy := by
  have useful (lower : s'.weight busy < s.weight busy) : s'.weight busy ≤ s.weight busy ∧
      ∀ t, a.continues = some t → Ready s t → s'.weight busy < s.weight busy :=
    ⟨Nat.le_of_lt lower, fun _ _ _ => lower⟩
  have idle (same : s'.weight busy = s.weight busy)
      (none_ready : ∀ t, a.continues = some t → ¬ Ready s t) : s'.weight busy ≤ s.weight busy ∧
      ∀ t, a.continues = some t → Ready s t → s'.weight busy < s.weight busy :=
    ⟨Nat.le_of_eq same, fun t ht ready => absurd ready (none_ready t ht)⟩
  cases steps_of_step hs with
  | beginPush | beginDestroy => exact absurd trivial h
  | pushLocked i item hi =>
      exact useful (lighter_of_move covers hi [item] (p := .signalling)
        (by simp [CallerPoint.weight]) rfl rfl rfl)
  | signalNobody i hi | signalWaiter i _ hi =>
      exact useful (lighter_of_move covers hi [] (p := .idle)
        (by simp [CallerPoint.weight]) rfl rfl (List.append_nil _).symm)
  | destroyLocked i hi =>
      exact useful (lighter_of_move covers hi [] (p := .signallingAll)
        (by simp [CallerPoint.weight]) rfl rfl (List.append_nil _).symm)
  | signalAll i hi =>
      exact useful (lighter_of_move covers hi [] (p := .joining)
        (by simp [CallerPoint.weight]) rfl rfl (List.append_nil _).symm)
  | join i hi =>
      exact useful (lighter_of_move covers hi [] (p := .destroyed)
        (by simp [CallerPoint.weight]) rfl rfl (List.append_nil _).symm)
  | beginFlush i hi =>
      have light : (s.callers i).weight = 0 := by simp [hi, CallerPoint.weight]
      exact idle (level_of_move covers light rfl rfl rfl rfl) (by simp [Action.continues])
  | leaveFlush i _ hi =>
      have light : (s.callers i).weight = 0 := by simp [hi, CallerPoint.weight]
      exact idle (level_of_move covers light rfl rfl rfl rfl)
        (by simp [Action.continues, Ready, light])
  | flushParks i _ may | flushReturns i _ may =>
      have light := may.weightless
      exact idle (level_of_move covers light rfl rfl rfl rfl)
        (by simp [Action.continues, Ready, light])
  | enter hw =>
      obtain ⟨low, lower⟩ := weight_loopHead busy limit s
      obtain start | ⟨waiting, _⟩ := hw
      · apply useful
        simp only [State.weight, start, WorkerPoint.weight] at low ⊢
        omega
      · have here : s.weight busy =
            3 * s.queue.length + 1 + ∑ i ∈ busy, (s.callers i).weight := by
          simp only [State.weight, waiting, WorkerPoint.weight]
        refine ⟨here ▸ low, ?_⟩
        intro t ht ready
        cases ht
        exact here ▸ lower (ready.2 waiting).2
  | relock hw =>
      obtain ⟨low, _⟩ := weight_loopHead busy limit { s with processing := false, waiters := ∅ }
      apply useful
      simp only [State.weight, hw, WorkerPoint.weight] at low ⊢
      omega
  | consumerReturns batch hw =>
      apply useful
      simp only [State.weight, hw, WorkerPoint.weight]
      omega
  | spurious => exact idle rfl (by simp [Action.continues])

theorem enabled_of_ready {t : Waiter ι} (ready : Ready s t) :
    ∃ a, a.continues = some t ∧ (step limit s a).isSome := by
  cases t with
  | worker =>
      obtain ⟨working, awake⟩ := ready
      cases hw : s.worker with
      | start | consumed => exact ⟨.workerLocked, rfl, by simp [step, workerStep, hw]⟩
      | waiting =>
          exact ⟨.workerLocked, rfl, by simp [step, workerStep, hw, (awake hw).1]⟩
      | consuming batch => exact ⟨.consumerReturns, rfl, by simp [step, hw]⟩
      | exited => exact absurd hw working
  | caller i =>
      obtain ⟨heavy, exited⟩ := ready
      cases hi : s.callers i with
      | pushing item => exact ⟨.pushLocked i, rfl, by simp [step, pushStep, hi]⟩
      | signalling =>
          obtain empty | ⟨w, hw⟩ := s.waiters.eq_empty_or_nonempty
          · exact ⟨.signal i none, rfl, by simp [step, signalStep, hi, empty]⟩
          · exact ⟨.signal i (some w), rfl, by simp [step, signalStep, hi, hw]⟩
      | destroying => exact ⟨.destroyLocked i, rfl, by simp [step, hi]⟩
      | signallingAll => exact ⟨.signalAll i, rfl, by simp [step, hi]⟩
      | joining => exact ⟨.join i, rfl, by simp [step, hi, exited hi]⟩
      | idle | flushing | waiting | flushed | destroyed =>
          simp [hi, CallerPoint.weight] at heavy

/-- What the other threads leave alone: the worker's program point, that it is awake, that the
queue is not empty, and that the batcher is stopped. -/
theorem worker_frame (hs : step limit s a = some s') (h : a.continues ≠ some .worker) :
    s'.worker = s.worker ∧ (.worker ∉ s.waiters → .worker ∉ s'.waiters) ∧
      (s.queue ≠ [] → s'.queue ≠ []) ∧ (s.running = false → s'.running = false) := by
  cases steps_of_step hs with
  | enter | relock | consumerReturns => exact absurd rfl h
  | pushLocked => exact ⟨rfl, id, fun _ => by simp, id⟩
  | signalWaiter | spurious => exact ⟨rfl, mt Finset.mem_of_mem_erase, id, id⟩
  | flushParks => exact ⟨rfl, fun awake => by simpa using awake, id, id⟩
  | destroyLocked => exact ⟨rfl, id, id, fun _ => rfl⟩
  | signalAll => exact ⟨rfl, fun _ => by simp, id, id⟩
  | beginPush | signalNobody | beginFlush | flushReturns | leaveFlush | beginDestroy | join =>
      exact ⟨rfl, id, id, id⟩

/-- A caller with work of its own to do is moved by itself only. -/
theorem caller_frame (hs : step limit s a = some s') {i : ι} (heavy : (s.callers i).weight ≠ 0)
    (h : a.continues ≠ some (.caller i)) : s'.callers i = s.callers i := by
  have other {j : ι} {p : CallerPoint T} (hj : i ≠ j) :
      (s.moveCaller j p).callers i = s.callers i := by
    rw [State.moveCaller_callers, Function.update_of_ne hj]
  cases steps_of_step hs with
  | beginPush j _ hj | beginFlush j hj | beginDestroy j hj =>
      refine other fun same => heavy ?_
      simp [same, hj, CallerPoint.weight]
  | pushLocked j | signalNobody j | signalWaiter j | flushParks j | flushReturns j
  | leaveFlush j | destroyLocked j | signalAll j | join j =>
      exact other fun same => h (by simp [Action.continues, same])
  | enter | relock | consumerReturns | spurious => rfl

theorem exited_step (hs : step limit s a = some s') (h : s.worker = .exited) :
    s'.worker = .exited := by
  cases steps_of_step hs with
  | enter hw | relock hw | consumerReturns _ hw => simp [h] at hw
  | beginPush | pushLocked | signalNobody | signalWaiter | beginFlush | flushParks
  | flushReturns | leaveFlush | beginDestroy | destroyLocked | signalAll | join | spurious =>
      exact h

theorem ready_step {t : Waiter ι} (hs : step limit s a = some s')
    (h : a.continues ≠ some t) (ready : Ready s t) : Ready s' t := by
  cases t with
  | worker =>
      obtain ⟨point, awake, queue, running⟩ := worker_frame hs h
      refine ⟨point ▸ ready.1, ?_⟩
      intro waiting
      obtain ⟨hw, work⟩ := ready.2 (point ▸ waiting)
      exact ⟨awake hw, work.imp queue running⟩
  | caller i =>
      have same := caller_frame hs ready.1 h
      exact ⟨same ▸ ready.1, fun joining => exited_step hs (ready.2 (same ▸ joining))⟩

/-- A goal is reached if, once no call with work of its own to do begins any more, some fairly
scheduled thread is ready wherever the goal is not yet met. -/
theorem eventually_of_ready {S : Schedule (machine ι T limit)} (goal : State ι T → Prop) {n : Nat}
    (quiet : ∀ m a, n ≤ m → S.label m = some a → ¬ a.Begins)
    (helpful : ∀ m, n ≤ m → ¬ goal (S.state m) → ∃ t, FairThread S t ∧ Ready (S.state m) t) :
    ∃ m, n ≤ m ∧ goal (S.state m) := by
  obtain ⟨busy, covers⟩ := exists_covers (Schedule.reachable_state (S := S) n)
  have covered : ∀ m, n ≤ m → Covers busy (S.state m) := by
    apply Schedule.always_of_kept covers
    exact fun m a le ha hm => covers_step hm (Schedule.step_of_label ha) (quiet m a le ha)
  have lowers (m : Nat) (a : Action ι T) (le : n ≤ m) (ha : S.label m = some a) :=
    weight_step (covered m le) (Schedule.step_of_label ha) (quiet m a le ha)
  apply Schedule.eventually_of_rank (fun t a => Action.continues a = some t)
    (fun t s => Ready s t) (State.weight busy) helpful
  · exact fun t m _ ready => enabled_of_ready ready
  · exact fun t m a _ ha other ready => ready_step (Schedule.step_of_label ha) other ready
  · exact fun t m a le ha act ready => (lowers m a le ha).2 t act ready
  · exact fun m a le ha => (lowers m a le ha).1

/-- With every call over and the worker asleep or gone, nobody goes on with anything. -/
theorem stuck_of_settled (callers : ∀ i, s.callers i = .idle ∨ s.callers i = .destroyed)
    (worker : s.worker = .exited ∨ s.worker = .waiting ∧ .worker ∈ s.waiters) (t : Waiter ι)
    (a : Action ι T) (h : a.continues = some t) : step limit s a = none := by
  cases hs : step limit s a with
  | none => rfl
  | some s' =>
      cases steps_of_step hs with
      | beginPush | beginFlush | beginDestroy | spurious => cases h
      | pushLocked i _ hi | signalNobody i hi | signalWaiter i _ hi | leaveFlush i _ hi
      | destroyLocked i hi | signalAll i hi | join i hi =>
          obtain other | other := callers i <;> simp [hi] at other
      | flushParks i _ may | flushReturns i _ may =>
          obtain ⟨hi, _⟩ | ⟨hi, _⟩ := may <;>
            obtain other | other := callers i <;> simp [hi] at other
      | enter hw =>
          obtain left | ⟨asleep, here⟩ := worker
          · simp [left] at hw
          · simp [asleep, here] at hw
      | relock hw | consumerReturns _ hw =>
          obtain left | ⟨asleep, _⟩ := worker
          · simp [left] at hw
          · simp [asleep] at hw

/-- What holds of a caller's program point before a move of some caller holds after it, if it is
not what the move takes away. -/
theorem point_moveCaller {P : CallerPoint T → Prop} {i j : ι} {p : CallerPoint T}
    (hi : P (s.callers i)) (h : ¬ P (s.callers j) ∨ P p) : P ((s.moveCaller j p).callers i) := by
  by_cases same : i = j
  · subst same
    simpa using h.resolve_left (not_not.mpr hi)
  · simpa [Function.update_of_ne same] using hi

end

end Logrin.Batcher
