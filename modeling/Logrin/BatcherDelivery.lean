import Logrin.Batcher
import Mathlib.Tactic.ByContra

/-!
What the consumer of a batcher receives, and what a returned `Flush` guarantees.

`Delivery` ties the queue, the batch in flight and the history together. It speaks of
`Core` alone, so the steps that only move a caller or a waiter keep it at once; what
is left is one case per mutex-protected region.
-/

namespace Logrin.Batcher
open Logrin.Library

universe u v
variable {ι : Type u} {T : Type v}

theorem fillBatch_append (limit : Nat) (batch queue : List T) :
    (fillBatch limit batch queue).1 ++ (fillBatch limit batch queue).2 = batch ++ queue := by
  induction queue generalizing batch with
  | nil => simp [fillBatch]
  | cons item queue ih =>
      simp only [fillBatch]
      split
      · simpa using ih (batch ++ [item])
      · rfl

theorem fillBatch_length_le (limit : Nat) (batch queue : List T) (pos : 0 < limit)
    (h : batch.length ≤ limit) : (fillBatch limit batch queue).1.length ≤ limit := by
  induction queue generalizing batch with
  | nil => simpa [fillBatch] using h
  | cons item queue ih =>
      simp only [fillBatch]
      split
      · apply ih
        simp only [List.length_append, List.length_singleton]
        omega
      · exact h

theorem length_le_fillBatch (limit : Nat) (batch queue : List T) :
    batch.length ≤ (fillBatch limit batch queue).1.length := by
  induction queue generalizing batch with
  | nil => simp [fillBatch]
  | cons item queue ih =>
      simp only [fillBatch]
      split
      · exact Nat.le_trans (by simp) (ih (batch ++ [item]))
      · exact Nat.le_refl _

theorem fillBatch_ne_nil (limit : Nat) (queue : List T) (h : queue ≠ []) :
    (fillBatch limit [] queue).1 ≠ [] := by
  cases queue with
  | nil => contradiction
  | cons item queue =>
      have taken : limit = 0 ∨ ([] : List T).length < limit := by
        simp only [List.length_nil]
        omega
      have grown := length_le_fillBatch limit ([] ++ [item]) queue
      simp only [fillBatch, if_pos taken]
      exact List.ne_nil_of_length_pos (Nat.lt_of_lt_of_le (by simp) grown)

/-- The three ways from the head of the outer loop to the next release of the mutex. -/
theorem Core.loopHead_cases (limit : Nat) (c : Core T) :
    (c.queue = [] ∧ c.running = true ∧ c.loopHead limit = { c with worker := .waiting }) ∨
    (c.queue = [] ∧ c.running = false ∧
      c.loopHead limit = { c with worker := .exited, exitMark := some c.pushed.length }) ∨
    ∃ batch rest, batch ≠ [] ∧ batch ++ rest = c.queue ∧
      (0 < limit → batch.length ≤ limit) ∧
      c.loopHead limit =
        { c with
          queue := rest
          processing := true
          worker := .consuming batch
          handed := c.handed ++ [batch] } := by
  cases hq : c.queue with
  | nil =>
      cases hr : c.running with
      | true => simp [loopHead, hq, hr]
      | false => simp [loopHead, hq, hr]
  | cons item queue =>
      refine Or.inr (Or.inr ⟨(fillBatch limit [] c.queue).1, (fillBatch limit [] c.queue).2,
        ?_, ?_, ?_, ?_⟩)
      · exact fillBatch_ne_nil limit c.queue (by simp [hq])
      · rw [fillBatch_append, hq, List.nil_append]
      · exact fun pos => fillBatch_length_le limit [] c.queue pos (Nat.zero_le _)
      · simp [loopHead, hq]

/-- The batch taken off the queue whose consumption has not returned. -/
def WorkerPoint.batch : WorkerPoint T → List (List T)
  | .consuming batch => [batch]
  | _ => []

/-- A batch has been taken and the mutex not been acquired again since. -/
def WorkerPoint.InFlight (w : WorkerPoint T) : Prop :=
  (∃ batch, w = .consuming batch) ∨ w = .consumed

/-- The inductive invariant of the core: nothing is lost, duplicated or reordered
between the queue, the batch in flight and the batches the consumer has returned from. -/
structure Delivery (limit : Nat) (c : Core T) : Prop where
  conserved : c.handed.flatten ++ c.queue = c.pushed
  bounded : ∀ batch ∈ c.handed, batch ≠ [] ∧ (0 < limit → batch.length ≤ limit)
  returned : c.returned ++ c.worker.batch = c.handed
  processing : c.processing = true ↔ c.worker.InFlight
  stopping : c.running = false → c.destroyMark ≠ none
  destroyed : ∀ d, c.destroyMark = some d → d ≤ c.pushed.length
  left : c.worker = .exited → ∃ n, c.exitMark = some n
  exited : ∀ n, c.exitMark = some n →
    c.worker = .exited ∧ n = c.handed.flatten.length ∧
      ∃ d, c.destroyMark = some d ∧ d ≤ n

theorem Delivery.init (limit : Nat) :
    Delivery limit (Batcher.init : State ι T).toCore := by
  constructor <;> simp [Batcher.init, WorkerPoint.batch, WorkerPoint.InFlight]

theorem Delivery.push {limit : Nat} {c : Core T} (inv : Delivery limit c) (item : T) :
    Delivery limit { c with queue := c.queue ++ [item], pushed := c.pushed ++ [item] } where
  conserved := by simp [← inv.conserved]
  bounded := inv.bounded
  returned := inv.returned
  processing := inv.processing
  stopping := inv.stopping
  destroyed d hd := by
    have h := inv.destroyed d hd
    simp only [List.length_append, List.length_singleton]
    omega
  left := inv.left
  exited := inv.exited

theorem Delivery.beginDestroy {limit : Nat} {c : Core T} (inv : Delivery limit c)
    (alive : c.destroyMark = none) :
    Delivery limit { c with destroyMark := some c.pushed.length } where
  conserved := inv.conserved
  bounded := inv.bounded
  returned := inv.returned
  processing := inv.processing
  stopping := by simp
  destroyed d hd := by
    cases hd
    exact Nat.le_refl _
  left := inv.left
  exited n hn := by
    obtain ⟨_, _, d, hd, _⟩ := inv.exited n hn
    simp [alive] at hd

theorem Delivery.stop {limit : Nat} {c : Core T} (inv : Delivery limit c)
    (called : c.destroyMark ≠ none) : Delivery limit { c with running := false } :=
  { inv with stopping := fun _ => called }

theorem Delivery.consumerReturns {limit : Nat} {c : Core T} (inv : Delivery limit c)
    (batch : List T) (hw : c.worker = .consuming batch) :
    Delivery limit { c with worker := .consumed, returned := c.handed } where
  conserved := inv.conserved
  bounded := inv.bounded
  returned := by simp [WorkerPoint.batch]
  processing := by
    have h := inv.processing
    simp only [hw, WorkerPoint.InFlight, reduceCtorEq, or_false, WorkerPoint.consuming.injEq,
      exists_eq', iff_true] at h
    simp [h, WorkerPoint.InFlight]
  stopping := inv.stopping
  destroyed := inv.destroyed
  left := by simp
  exited n hn := by
    have h := (inv.exited n hn).1
    rw [hw] at h
    contradiction

/-- The worker holds the mutex at the head of its outer loop: no batch is in flight. -/
theorem Delivery.loopHead {limit : Nat} {c : Core T} (inv : Delivery limit c)
    (settled : c.worker.batch = []) (idle : c.processing = false)
    (running : c.exitMark = none) : Delivery limit (c.loopHead limit) := by
  have all : c.returned = c.handed := by simpa [settled] using inv.returned
  obtain ⟨_, _, h⟩ | ⟨empty, stopped, h⟩ | ⟨batch, rest, nonempty, split, small, h⟩ :=
    Core.loopHead_cases limit c
  · rw [h]
    exact { inv with
      returned := by simpa [WorkerPoint.batch] using all
      processing := by simp [idle, WorkerPoint.InFlight]
      left := by simp
      exited := by simp [running] }
  · have drained : c.handed.flatten = c.pushed := by simpa [empty] using inv.conserved
    rw [h]
    exact { inv with
      returned := by simpa [WorkerPoint.batch] using all
      processing := by simp [idle, WorkerPoint.InFlight]
      left := by simp
      exited := by
        intro n hn
        obtain ⟨d, hd⟩ := Option.ne_none_iff_exists'.mp (inv.stopping stopped)
        simp only [Option.some.injEq] at hn
        exact ⟨rfl, by rw [drained, hn], d, hd, hn ▸ inv.destroyed d hd⟩ }
  · rw [h]
    exact { inv with
      conserved := by simp [← inv.conserved, ← split]
      bounded := by
        intro b hb
        obtain hb | hb := List.mem_append.mp hb
        · exact inv.bounded b hb
        · rw [List.mem_singleton.mp hb]
          exact ⟨nonempty, small⟩
      returned := by simp [WorkerPoint.batch, all]
      processing := by simp [WorkerPoint.InFlight]
      left := by simp
      exited := by simp [running] }

/-- The head of the loop does not read the program point it is reached from. -/
theorem Core.loopHead_worker (limit : Nat) (c : Core T) (w : WorkerPoint T) :
    Core.loopHead limit { c with worker := w } = c.loopHead limit := by
  simp only [loopHead]

/-- The consumer has returned: `n_processing` is cleared and the loop goes on. -/
theorem Delivery.relock {limit : Nat} {c : Core T} (inv : Delivery limit c)
    (hw : c.worker = .consumed) :
    Delivery limit (Core.loopHead limit { c with processing := false }) := by
  have unmarked : ∀ n, c.exitMark ≠ some n := by
    intro n hn
    simpa [hw] using (inv.exited n hn).1
  have settled : Delivery limit { c with processing := false, worker := .start } :=
    { inv with
      returned := by simpa [hw, WorkerPoint.batch] using inv.returned
      processing := by simp [WorkerPoint.InFlight]
      left := by simp
      exited := fun n hn => absurd hn (unmarked n) }
  rw [← Core.loopHead_worker limit _ .start]
  exact settled.loopHead rfl rfl (Option.eq_none_iff_forall_ne_some.mpr unmarked)

theorem Core.loopHead_history (limit : Nat) (c : Core T) :
    (c.loopHead limit).pushed = c.pushed ∧ (c.loopHead limit).returned = c.returned ∧
      (c.loopHead limit).destroyMark = c.destroyMark := by
  obtain ⟨_, _, h⟩ | ⟨_, _, h⟩ | ⟨_, _, _, _, _, h⟩ := loopHead_cases limit c <;> simp [h]

/-- Every `Flush` call in progress started at some number of pushed items, and one that
is about to return has seen the consumer return from that many. -/
structure Barrier (s : State ι T) : Prop where
  waiting : ∀ i seen, s.callers i = .waiting seen → seen ≤ s.pushed.length
  flushed : ∀ i seen, s.callers i = .flushed seen → seen ≤ s.returned.flatten.length

/-- More items pushed and more batches returned keep the barrier. -/
theorem Barrier.mono {s s' : State ι T} (inv : Barrier s) (callers : s'.callers = s.callers)
    (pushed : s.pushed.length ≤ s'.pushed.length)
    (returned : s.returned.flatten.length ≤ s'.returned.flatten.length) : Barrier s' where
  waiting i seen hi := Nat.le_trans (inv.waiting i seen (callers ▸ hi)) pushed
  flushed i seen hi := Nat.le_trans (inv.flushed i seen (callers ▸ hi)) returned

theorem State.MayFlush.seen_le {s : State ι T} {i : ι} {seen : Nat} (h : s.MayFlush i seen)
    (inv : Barrier s) : seen ≤ s.pushed.length := by
  obtain ⟨_, first⟩ | ⟨again, _⟩ := h
  · exact Nat.le_of_eq first
  · exact inv.waiting i seen again

section
variable [DecidableEq ι] {limit : Nat} {s s' : State ι T} {a : Action ι T}

/-- A caller found at `q` after `p` was written to one has just got there, or was there
before. -/
theorem point_of_update {f : ι → CallerPoint T} {i j : ι} {p q : CallerPoint T}
    (h : Function.update f i p j = q) : p = q ∨ f j = q := by
  by_cases hj : j = i
  · rw [hj, Function.update_self] at h
    exact Or.inl h
  · rw [Function.update_of_ne hj] at h
    exact Or.inr h

theorem point_before_update {f : ι → CallerPoint T} {i j : ι} {p q : CallerPoint T}
    (h : Function.update f i p j = q) (hp : p ≠ q) : f j = q :=
  (point_of_update h).resolve_left hp

/-- A caller inside the destructor has left its mark. -/
theorem destroying_marked (h : (machine ι T limit).Reachable s) (i : ι)
    (hi : s.callers i = .destroying) : s.destroyMark ≠ none := by
  refine h.invariant (I := fun s => ∀ i, s.callers i = .destroying → s.destroyMark ≠ none)
    ?_ ?_ i hi
  · intro i hi
    simp [machine, init] at hi
  · intro s a s' _ inv hs j hj
    cases steps_of_step hs with
    | beginPush | signalNobody | signalWaiter | beginFlush | flushParks | flushReturns
    | leaveFlush | signalAll | join | pushLocked | destroyLocked =>
        exact inv j (point_before_update hj (by simp))
    | beginDestroy => simp
    | consumerReturns | spurious => exact inv j hj
    | enter | relock =>
        rw [State.loopHead_toCore, (Core.loopHead_history _ _).2.2]
        exact inv j hj

theorem Delivery.enter {c : Core T} (inv : Delivery limit c)
    (hw : c.worker = .start ∨ c.worker = .waiting) : Delivery limit (c.loopHead limit) := by
  have settled : ¬ c.worker.InFlight := by
    obtain hw | hw := hw <;> simp [hw, WorkerPoint.InFlight]
  have unmarked : c.exitMark = none := by
    apply Option.eq_none_iff_forall_ne_some.mpr
    intro n hn
    obtain hw | hw := hw <;> simpa [hw] using (inv.exited n hn).1
  apply inv.loopHead _ _ unmarked
  · obtain hw | hw := hw <;> simp [hw, WorkerPoint.batch]
  · simpa using mt inv.processing.mp settled

theorem delivery_of_reachable (h : (machine ι T limit).Reachable s) :
    Delivery limit s.toCore := by
  apply h.invariant (I := fun s => Delivery limit s.toCore) (Delivery.init limit)
  intro s a s' reachable inv hs
  cases steps_of_step hs with
  | beginPush | signalNobody | signalWaiter | beginFlush | flushParks | flushReturns
  | leaveFlush | signalAll | join | spurious => exact inv
  | pushLocked i item _ => exact inv.push item
  | beginDestroy i _ alive => exact inv.beginDestroy alive
  | destroyLocked i hi => exact inv.stop (destroying_marked reachable i hi)
  | enter hw => exact inv.enter (hw.imp_right And.left)
  | relock hw => exact inv.relock hw
  | consumerReturns batch hw => exact inv.consumerReturns batch hw

/-- The destructor's `join` returns only after the worker has left its loop. -/
theorem exited_of_destroyed (h : (machine ι T limit).Reachable s) (i : ι)
    (hi : s.callers i = .destroyed) : s.worker = .exited := by
  refine h.invariant (I := fun s => ∀ i, s.callers i = .destroyed → s.worker = .exited)
    ?_ ?_ i hi
  · intro i hi
    simp [machine, init] at hi
  · intro s a s' _ inv hs j hj
    cases steps_of_step hs with
    | beginPush | signalNobody | signalWaiter | beginFlush | flushParks | flushReturns
    | leaveFlush | signalAll | pushLocked | destroyLocked | beginDestroy =>
        exact inv j (point_before_update hj (by simp))
    | join i _ hw => exact hw
    | spurious => exact inv j hj
    | enter hw => simp [inv j hj] at hw
    | relock hw => simp [inv j hj] at hw
    | consumerReturns batch hw => simp [inv j hj] at hw

/-- The step on which the worker leaves its loop finds the queue empty. -/
theorem queue_empty_at_exit (hs : step limit s a = some s') (before : s.worker ≠ .exited)
    (after : s'.worker = .exited) : s'.queue = [] := by
  have head (c : Core T) (h : (c.loopHead limit).worker = .exited) :
      (c.loopHead limit).queue = [] := by
    obtain ⟨empty, _, e⟩ | ⟨empty, _, e⟩ | ⟨_, _, _, _, _, e⟩ := Core.loopHead_cases limit c
    · rw [e]; exact empty
    · rw [e]; exact empty
    · rw [e] at h; contradiction
  cases steps_of_step hs with
  | beginPush | signalNobody | signalWaiter | beginFlush | flushParks | flushReturns
  | leaveFlush | signalAll | join | spurious | pushLocked | beginDestroy | destroyLocked =>
      exact absurd after before
  | enter => exact head _ after
  | relock => exact head _ after
  | consumerReturns => contradiction

/-- The consumer of the OpenTelemetry sink: one `EmitLogRecord` for every record. -/
def emitBatch {R : Type*} (convert : T → R) (emitted : List R) (batch : List T) : List R :=
  batch.foldl (fun out record => out ++ [convert record]) emitted

def emitBatches {R : Type*} (convert : T → R) (batches : List (List T)) : List R :=
  batches.foldl (emitBatch convert) []

theorem emitBatch_eq {R : Type*} (convert : T → R) (emitted : List R) (batch : List T) :
    emitBatch convert emitted batch = emitted ++ batch.map convert := by
  induction batch generalizing emitted with
  | nil => simp [emitBatch]
  | cons record batch ih =>
      have h := ih (emitted ++ [convert record])
      simp only [emitBatch] at h
      simp [emitBatch, h]

theorem foldl_emitBatch {R : Type*} (convert : T → R) (emitted : List R)
    (batches : List (List T)) :
    batches.foldl (emitBatch convert) emitted = emitted ++ batches.flatten.map convert := by
  induction batches generalizing emitted with
  | nil => simp
  | cons batch batches ih => simp [emitBatch_eq, ih]

theorem emitBatches_eq {R : Type*} (convert : T → R) (batches : List (List T)) :
    emitBatches convert batches = batches.flatten.map convert := by
  rw [emitBatches, foldl_emitBatch, List.nil_append]

/-- What a reachable state owes its producers. After the worker has left its loop the
handed items are the first `n` pushed, `n` covers all that was pushed when the
destructor was called, and whatever is in the queue was pushed even later. -/
theorem pushed_items_delivered_once {R : Type*} (convert : T → R)
    (h : (machine ι T limit).Reachable s) :
    s.handed.flatten ++ s.queue = s.pushed ∧
    (∀ batch ∈ s.handed, batch ≠ [] ∧ (0 < limit → batch.length ≤ limit)) ∧
    (∀ a s', step limit s a = some s' → s.worker ≠ .exited → s'.worker = .exited →
      s'.queue = []) ∧
    (s.worker = .exited → ∃ d n, s.destroyMark = some d ∧ s.exitMark = some n ∧ d ≤ n ∧
      s.handed.flatten = s.pushed.take n ∧ s.queue = s.pushed.drop n ∧
      emitBatches convert s.returned = (s.pushed.take n).map convert ∧
      (s.pushed.length = d → s.queue = [] ∧ s.handed.flatten = s.pushed)) ∧
    (∀ i, s.callers i = .destroyed → s.worker = .exited) := by
  have inv := delivery_of_reachable h
  refine ⟨inv.conserved, inv.bounded, fun a s' hs => queue_empty_at_exit hs, ?_,
    exited_of_destroyed h⟩
  intro left
  obtain ⟨n, hn⟩ := inv.left left
  obtain ⟨_, count, d, hd, le⟩ := inv.exited n hn
  have handed : s.handed.flatten = s.pushed.take n := by
    rw [← inv.conserved, count, List.take_left]
  have queue : s.queue = s.pushed.drop n := by
    rw [← inv.conserved, count, List.drop_left]
  have returned : s.returned = s.handed := by
    simpa [left, WorkerPoint.batch] using inv.returned
  refine ⟨d, n, hd, hn, le, handed, queue, ?_, ?_⟩
  · rw [emitBatches_eq, returned, handed]
  · intro last
    have short : s.pushed.length ≤ n := by omega
    exact ⟨by rw [queue, List.drop_of_length_le short],
      by rw [handed, List.take_of_length_le short]⟩

def servedRun : List (Action (Fin 2) Nat) :=
  [.workerLocked, .beginPush 0 7, .pushLocked 0, .beginFlush 1, .flushLocked 1,
    .signal 0 (some .worker), .workerLocked, .consumerReturns, .workerLocked,
    .flushLocked 1]

def shutdownRun : List (Action (Fin 2) Nat) :=
  servedRun ++ [.leaveFlush 1, .beginDestroy 0, .destroyLocked 0, .signalAll 0,
    .workerLocked, .join 0]

theorem pushed_item_delivered_once :
    ∃ s, (machine (Fin 2) Nat 1).run init shutdownRun = some s ∧ s.worker = .exited ∧
      s.handed.flatten ++ s.queue = [7] ∧ s.handed = [[7]] ∧
      emitBatches id s.returned = [7] := by
  have all := pushed_items_delivered_once (ι := Fin 2) id
    (Machine.reachable_of_run (M := machine (Fin 2) Nat 1) shutdownRun rfl)
  obtain ⟨d, n, _, hn, _, _, _, emitted, _⟩ := all.2.2.2.1 rfl
  refine ⟨_, rfl, rfl, all.1, rfl, ?_⟩
  cases hn
  exact emitted

/-- With an empty queue and no batch in flight the consumer has returned from all. -/
theorem Delivery.all_returned {c : Core T} (inv : Delivery limit c) (empty : c.queue = [])
    (idle : c.processing = false) : c.returned.flatten = c.pushed := by
  have settled : ¬ c.worker.InFlight := by simpa [idle] using mt inv.processing.mpr
  have none_left : c.worker.batch = [] := by
    cases hw : c.worker with
    | consuming batch => exact absurd (Or.inl ⟨batch, hw⟩) settled
    | start | waiting | consumed | exited => rfl
  have all := inv.returned
  rw [none_left, List.append_nil] at all
  rw [all, ← inv.conserved, empty, List.append_nil]

theorem Delivery.returned_le {c : Core T} (inv : Delivery limit c) :
    c.returned.flatten.length ≤ c.handed.flatten.length := by
  rw [← inv.returned]
  simp

/-- Steps that leave the history alone and move one caller to an unrelated point. -/
theorem Barrier.moveCaller (inv : Barrier s) (i : ι) (p : CallerPoint T)
    (not_waiting : ∀ seen, p ≠ .waiting seen) (not_flushed : ∀ seen, p ≠ .flushed seen) :
    Barrier (s.moveCaller i p) where
  waiting j seen hj := inv.waiting j seen (point_before_update hj (not_waiting seen))
  flushed j seen hj := inv.flushed j seen (point_before_update hj (not_flushed seen))

theorem Barrier.loopHead (inv : Barrier s) : Barrier (s.loopHead limit) := by
  obtain ⟨pushed, returned, _⟩ := Core.loopHead_history limit s.toCore
  exact inv.mono rfl (by rw [State.loopHead_toCore, pushed])
    (by rw [State.loopHead_toCore, returned])

theorem barrier_of_reachable (h : (machine ι T limit).Reachable s) : Barrier s := by
  apply h.invariant (I := Barrier)
  · constructor <;> simp [machine, init]
  intro s a s' reachable inv hs
  have delivery := delivery_of_reachable reachable
  cases steps_of_step hs with
  | beginPush | signalNobody | signalWaiter | beginFlush | leaveFlush | beginDestroy
  | destroyLocked | signalAll | join =>
      exact (inv.moveCaller _ _ (by simp) (by simp)).mono rfl (Nat.le_refl _) (Nat.le_refl _)
  | pushLocked i item =>
      exact (inv.moveCaller i .signalling (by simp) (by simp)).mono rfl (by simp)
        (Nat.le_refl _)
  | flushParks i seen may =>
      constructor
      · intro j n hj
        obtain arrived | before := point_of_update hj
        · cases arrived
          exact may.seen_le inv
        · exact inv.waiting j n before
      · exact fun j n hj => inv.flushed j n (point_before_update hj (by simp))
  | flushReturns i seen may empty idle =>
      constructor
      · exact fun j n hj => inv.waiting j n (point_before_update hj (by simp))
      · intro j n hj
        obtain arrived | before := point_of_update hj
        · cases arrived
          rw [State.moveCaller_toCore, delivery.all_returned empty idle]
          exact may.seen_le inv
        · exact inv.flushed j n before
  | enter => exact inv.loopHead
  | relock =>
      exact Barrier.loopHead (s := { s with processing := false, waiters := ∅ })
        (inv.mono rfl (Nat.le_refl _) (Nat.le_refl _))
  | consumerReturns => exact inv.mono rfl (Nat.le_refl _) delivery.returned_le
  | spurious => exact inv.mono rfl (Nat.le_refl _) (Nat.le_refl _)

/-- When a `Flush` call returns, the batches the consumer has returned from begin with
every item pushed before the call first acquired the mutex; and `n_processing` is set
exactly while a batch is off the queue and the mutex not acquired again. -/
theorem flush_is_barrier (h : (machine ι T limit).Reachable s) :
    (∀ i seen, s.callers i = .flushed seen →
      seen ≤ s.pushed.length ∧ s.pushed.take seen <+: s.returned.flatten) ∧
    (s.processing = true ↔ s.worker.InFlight) := by
  have inv := delivery_of_reachable h
  refine ⟨?_, inv.processing⟩
  intro i seen hi
  have le := (barrier_of_reachable h).flushed i seen hi
  have split : s.returned.flatten ++ (s.worker.batch.flatten ++ s.queue) = s.pushed := by
    rw [← inv.conserved, ← inv.returned, List.flatten_append, List.append_assoc]
  have prior : s.pushed.take seen = s.returned.flatten.take seen := by
    rw [← split, List.take_append_of_le_length le]
  refine ⟨?_, ?_⟩
  · rw [← split, List.length_append]
    omega
  · rw [prior]
    exact List.take_prefix seen _

theorem flush_returns_after_item :
    ∃ s, (machine (Fin 2) Nat 1).run init servedRun = some s ∧ s.callers 1 = .flushed 1 ∧
      [7] <+: s.returned.flatten := by
  have all := flush_is_barrier (ι := Fin 2)
    (Machine.reachable_of_run (M := machine (Fin 2) Nat 1) servedRun rfl)
  exact ⟨_, rfl, rfl, (all.1 1 1 rfl).2⟩

end

end Logrin.Batcher
