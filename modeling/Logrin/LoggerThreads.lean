import Logrin.LogFactory
import Logrin.OpenTelemetrySink
import Mathlib.Data.Fintype.Defs
import Mathlib.Data.Fintype.EquivFin

/-!
A logger in a program of many threads: every thread makes its log statements one after the
other, the calls on the sinks of all threads interleave, and behind each asynchronous sink the
worker of its batcher goes on by itself. A thread makes its next call when it is inside none.
-/

namespace Logrin.Threads
open Logrin.Library

universe u v w
variable {ι : Type u} {σ : Type v} {κ : Type w}

inductive Operation (σ : Type v) (κ : Type w) where
  | call (call : SinkCall σ κ)
  | flush (call : FlushCall σ κ)

/-- How a call on an asynchronous sink begins there. -/
def Operation.begins (i : ι) : Operation σ κ → Option (κ × Batcher.Action ι LogRecord)
  | .call (.enqueue sink record) => some (sink, .beginPush i record)
  | .flush (.asyncSink sink) => some (sink, .beginFlush i)
  | .call (.emit _ _) | .flush (.sink _) => none

def Operation.writes : Operation σ κ → List (σ × LogRecord)
  | .call (.emit sink record) => [(sink, record)]
  | .call (.enqueue _ _) | .flush _ => []

def Operation.enqueues [DecidableEq κ] (k : κ) : Operation σ κ → List LogRecord
  | .call (.enqueue sink record) => if sink = k then [record] else []
  | .call (.emit _ _) | .flush _ => []

structure State (ι : Type u) (σ : Type v) (κ : Type w) where
  /-- the calls each thread has still to make -/
  todo : ι → List (Operation σ κ)
  /-- the calls of `Emit` so far, with their threads -/
  written : List (ι × σ × LogRecord)
  asyncSinks : κ → OpenTelemetry.State ι

inductive Action (ι : Type u) (κ : Type w) where
  | perform (i : ι)
  | sink (k : κ) (a : OpenTelemetry.Action ι)

def start (program : ι → List (Operation σ κ)) : State ι σ κ where
  todo := program
  written := []
  asyncSinks := fun _ => OpenTelemetry.init

def begins : OpenTelemetry.Action ι → Bool
  | .batcher (.beginPush _ _) | .batcher (.beginFlush _) | .batcher (.beginDestroy _) => true
  | _ => false

section
variable [DecidableEq ι] [DecidableEq κ] [Fintype κ]

def State.Idle (s : State ι σ κ) (i : ι) : Prop :=
  ∀ k, ((s.asyncSinks k).batcher.callers i matches .idle) = true

instance (s : State ι σ κ) (i : ι) : Decidable (s.Idle i) :=
  inferInstanceAs (Decidable (∀ k, ((s.asyncSinks k).batcher.callers i matches .idle) = true))

def State.Ended (s : State ι σ κ) : Prop := ∃ k, (s.asyncSinks k).aborted.isSome = true

instance (s : State ι σ κ) : Decidable s.Ended :=
  inferInstanceAs (Decidable (∃ k, (s.asyncSinks k).aborted.isSome = true))

def sinkStep (limits : κ → Nat) (s : State ι σ κ) (k : κ) (a : OpenTelemetry.Action ι) :
    Option (State ι σ κ) :=
  (OpenTelemetry.step (limits k) (s.asyncSinks k) a).map fun sink =>
    { s with asyncSinks := Function.update s.asyncSinks k sink }

/-- Thread `i` makes its next call: a call on an asynchronous sink begins there, and one on a
synchronous sink is made at once. -/
def perform (limits : κ → Nat) (s : State ι σ κ) (i : ι) : Option (State ι σ κ) :=
  match s.todo i with
  | [] => none
  | op :: rest =>
      let next : State ι σ κ :=
        { s with
          todo := Function.update s.todo i rest
          written := s.written ++ op.writes.map (Prod.mk i) }
      match op.begins i with
      | some (k, a) => sinkStep limits next k (.batcher a)
      | none => some next

def step (limits : κ → Nat) (s : State ι σ κ) (a : Action ι κ) : Option (State ι σ κ) :=
  if s.Ended then none
  else
    match a with
    | .perform i => if s.Idle i then perform limits s i else none
    | .sink k a => if begins a then none else sinkStep limits s k a

end

def machine [DecidableEq ι] [DecidableEq κ] [Fintype κ] (limits : κ → Nat)
    (program : ι → List (Operation σ κ)) : Machine (State ι σ κ) (Action ι κ) where
  start := start program
  step := step limits

/-- Everything a step can do. -/
inductive Steps [DecidableEq ι] [DecidableEq κ] (limits : κ → Nat) (s : State ι σ κ) :
    Action ι κ → State ι σ κ → Prop
  | writes (i : ι) (op : Operation σ κ) (rest : List (Operation σ κ)) :
      (∀ k, (s.asyncSinks k).batcher.callers i = .idle) → s.todo i = op :: rest →
      op.begins i = none →
      Steps limits s (.perform i)
        { s with
          todo := Function.update s.todo i rest
          written := s.written ++ op.writes.map (Prod.mk i) }
  | begins (i : ι) (op : Operation σ κ) (rest : List (Operation σ κ)) (k : κ)
      (a : Batcher.Action ι LogRecord) (sink : OpenTelemetry.State ι) :
      (∀ k, (s.asyncSinks k).batcher.callers i = .idle) → s.todo i = op :: rest →
      op.begins i = some (k, a) →
      OpenTelemetry.step (limits k) (s.asyncSinks k) (.batcher a) = some sink →
      Steps limits s (.perform i)
        { s with
          todo := Function.update s.todo i rest
          written := s.written ++ op.writes.map (Prod.mk i)
          asyncSinks := Function.update s.asyncSinks k sink }
  | sink (k : κ) (a : OpenTelemetry.Action ι) (sink : OpenTelemetry.State ι) :
      begins a = false → OpenTelemetry.step (limits k) (s.asyncSinks k) a = some sink →
      Steps limits s (.sink k a) { s with asyncSinks := Function.update s.asyncSinks k sink }

theorem idle_iff {s : State ι σ κ} {i : ι} :
    s.Idle i ↔ ∀ k, (s.asyncSinks k).batcher.callers i = .idle := by
  refine forall_congr' fun k => ?_
  cases (s.asyncSinks k).batcher.callers i <;> simp

section Calls
variable [DecidableEq ι]

/-- The record of a call of `Enqueue` by thread `i` that a step begins. -/
def begunBy (i : ι) : OpenTelemetry.Action ι → List LogRecord
  | .batcher a => Batcher.begunBy i a
  | .emit _ => []

theorem begunBy_inner (i : ι) {x : OpenTelemetry.Action ι} (h : begins x = false) :
    begunBy i x = [] := by
  cases x with
  | emit => rfl
  | batcher a => cases a <;> first | rfl | cases h

theorem begun_step {limit : Nat} {b b' : OpenTelemetry.State ι} {x : OpenTelemetry.Action ι}
    {h : List (Batcher.State ι LogRecord × Batcher.Action ι LogRecord)}
    (run : (Batcher.machine ι LogRecord limit).Execution h b.batcher)
    (hs : OpenTelemetry.step limit b x = some b') :
    ∃ h', (Batcher.machine ι LogRecord limit).Execution h' b'.batcher ∧
      ∀ i, Batcher.begun i h' = Batcher.begun i h ++ begunBy i x := by
  have moves := (OpenTelemetry.toBatcher ι limit).step b x b' hs
  cases x with
  | emit =>
      have same : b'.batcher = b.batcher := moves
      exact ⟨h, same ▸ run, by simp [begunBy]⟩
  | batcher a => exact ⟨h ++ [(b.batcher, a)], .next run moves, by simp [Batcher.begun, begunBy]⟩

theorem flatMap_update {α : Type*} (made : ι → List (Operation σ κ)) (i j : ι)
    (op : Operation σ κ) (f : Operation σ κ → List α) :
    (Function.update made i (made i ++ [op]) j).flatMap f =
      (made j).flatMap f ++ if i = j then f op else [] := by
  by_cases same : i = j
  · subst same
    simp
  · simp [same, Function.update_of_ne (Ne.symm same)]

theorem ofThread_map {α : Type*} (i j : ι) (xs : List α) :
    Batcher.ofThread j (xs.map (Prod.mk i)) = if i = j then xs else [] := by
  by_cases same : i = j <;> simp [Batcher.ofThread, same, List.filter_map, Function.comp_def]

section
variable [DecidableEq κ]

/-- A call on an asynchronous sink gives that sink its record, and no other sink. -/
theorem enqueues_of_begins {op : Operation σ κ} {i : ι} {k : κ} {a : Batcher.Action ι LogRecord}
    (h : op.begins i = some (k, a)) (j : ι) (k' : κ) :
    (if k = k' then begunBy j (.batcher a) else []) = if i = j then op.enqueues k' else [] := by
  cases op with
  | call call =>
      cases call with
      | emit => cases h
      | enqueue sink record =>
          cases h
          by_cases same : k = k' <;> simp [same, begunBy, Batcher.begunBy, Operation.enqueues]
  | flush call =>
      cases call with
      | sink => cases h
      | asyncSink sink =>
          cases h
          simp [begunBy, Batcher.begunBy, Operation.enqueues]

omit [DecidableEq ι] in
theorem enqueues_of_not_begins {op : Operation σ κ} {i : ι} (h : op.begins i = none) (k : κ) :
    op.enqueues k = [] := by
  cases op with
  | call call =>
      cases call with
      | emit => rfl
      | enqueue => cases h
  | flush call => rfl

end

end Calls

section
variable [DecidableEq ι] [DecidableEq κ] [Fintype κ] {limits : κ → Nat}
  {program : ι → List (Operation σ κ)} {s s' : State ι σ κ} {a : Action ι κ}

theorem steps_of_step (hs : step limits s a = some s') : Steps limits s a s' := by
  simp only [step, Option.ite_none_left_eq_some] at hs
  obtain ⟨_, hs⟩ := hs
  cases a with
  | sink k a =>
      simp only [Option.ite_none_left_eq_some, Bool.not_eq_true, sinkStep, Option.map_eq_some_iff]
        at hs
      obtain ⟨inner, sink, hsink, rfl⟩ := hs
      exact .sink k a sink inner hsink
  | perform i =>
      simp only [Option.ite_none_right_eq_some, perform] at hs
      obtain ⟨idle, hs⟩ := hs
      split at hs
      · cases hs
      · next op rest todo =>
          split at hs
          · next k a begins =>
              simp only [sinkStep, Option.map_eq_some_iff] at hs
              obtain ⟨sink, hsink, rfl⟩ := hs
              exact .begins i op rest k a sink (idle_iff.mp idle) todo begins hsink
          · next begins =>
              cases hs
              exact .writes i op rest (idle_iff.mp idle) todo begins

def toSink (limits : κ → Nat) (program : ι → List (Operation σ κ)) (k : κ) :
    Simulation (machine limits program) (OpenTelemetry.machine ι (limits k)) where
  state s := s.asyncSinks k
  label s a := match a with
    | .sink k' a => if k' = k then some a else none
    | .perform i =>
        match (s.todo i).head?.bind (Operation.begins i) with
        | some (k', a) => if k' = k then some (.batcher a) else none
        | none => none
  start := rfl
  step s a s' hs := by
    have other {k' : κ} (sink : OpenTelemetry.State ι) (ne : k' ≠ k) :
        Function.update s.asyncSinks k' sink k = s.asyncSinks k := Function.update_of_ne ne.symm _ _
    cases steps_of_step hs with
    | writes i op rest _ todo begins => simp [todo, begins, Matches]
    | begins i op rest k' a sink _ todo begins hsink =>
        by_cases same : k' = k
        · subst same
          simpa [todo, begins, Matches, OpenTelemetry.machine] using hsink
        · simp [todo, begins, Matches, same, other sink same]
    | sink k' a sink _ hsink =>
        by_cases same : k' = k
        · subst same
          simpa [Matches, OpenTelemetry.machine] using hsink
        · simp [Matches, same, other sink same]

theorem sink_reachable (h : (machine limits program).Reachable s) (k : κ) :
    (OpenTelemetry.machine ι (limits k)).Reachable (s.asyncSinks k) :=
  (toSink limits program k).reachable h

/-- The calls the threads have made: the program up to what is still to do, with what every sink
has got of it. -/
structure Made (limits : κ → Nat) (program : ι → List (Operation σ κ)) (s : State ι σ κ)
    (made : ι → List (Operation σ κ)) : Prop where
  split : ∀ i, made i ++ s.todo i = program i
  written : ∀ i, Batcher.ofThread i s.written = (made i).flatMap Operation.writes
  enqueued : ∀ k, ∃ h,
    (Batcher.machine ι LogRecord (limits k)).Execution h (s.asyncSinks k).batcher ∧
      ∀ i, Batcher.begun i h = (made i).flatMap (Operation.enqueues k)

omit [Fintype κ] in
theorem Made.perform {made : ι → List (Operation σ κ)} (inv : Made limits program s made) {i : ι}
    {op : Operation σ κ} {rest : List (Operation σ κ)} (todo : s.todo i = op :: rest)
    (asyncSinks : κ → OpenTelemetry.State ι)
    (enqueued : ∀ k, ∃ h,
      (Batcher.machine ι LogRecord (limits k)).Execution h (asyncSinks k).batcher ∧
        ∀ j, Batcher.begun j h =
          (made j).flatMap (Operation.enqueues k) ++ if i = j then op.enqueues k else []) :
    Made limits program
      { s with
        todo := Function.update s.todo i rest
        written := s.written ++ op.writes.map (Prod.mk i)
        asyncSinks := asyncSinks }
      (Function.update made i (made i ++ [op])) where
  split j := by
    by_cases same : j = i
    · subst same
      simpa [todo] using inv.split j
    · simpa [Function.update_of_ne same] using inv.split j
  written j := by
    rw [Batcher.ofThread_append, inv.written, ofThread_map, flatMap_update]
  enqueued k := by
    obtain ⟨h, run, begun⟩ := enqueued k
    exact ⟨h, run, fun j => by rw [begun, flatMap_update]⟩

theorem Made.step {made : ι → List (Operation σ κ)} (inv : Made limits program s made)
    (hs : step limits s a = some s') : ∃ made', Made limits program s' made' := by
  cases steps_of_step hs with
  | writes i op rest _ todo begins =>
      refine ⟨_, inv.perform todo s.asyncSinks fun k => ?_⟩
      simpa [enqueues_of_not_begins begins] using inv.enqueued k
  | begins i op rest k a sink _ todo begins hsink =>
      refine ⟨_, inv.perform todo _ fun k' => ?_⟩
      obtain ⟨h, run, begun⟩ := inv.enqueued k'
      simp only [← enqueues_of_begins begins, ← begun]
      by_cases same : k = k'
      · subst same
        simpa using begun_step run hsink
      · exact ⟨h, by simpa [Function.update_of_ne (Ne.symm same)] using run, by simp [same]⟩
  | sink k a sink inner hsink =>
      refine ⟨made, inv.split, inv.written, fun k' => ?_⟩
      obtain ⟨h, run, begun⟩ := inv.enqueued k'
      by_cases same : k = k'
      · subst same
        obtain ⟨h', run', begun'⟩ := begun_step run hsink
        exact ⟨h', by simpa using run', fun i => by simp [begun', begun, begunBy_inner i inner]⟩
      · exact ⟨h, by simpa [Function.update_of_ne (Ne.symm same)] using run, begun⟩

theorem made_of_reachable (h : (machine limits program).Reachable s) :
    ∃ made, Made limits program s made := by
  apply h.invariant (I := fun s => ∃ made, Made limits program s made)
  · refine ⟨fun _ => [], ?_⟩
    constructor
    · simp [machine, start]
    · simp [machine, start, Batcher.ofThread]
    · exact fun k => ⟨[], .start, by simp [Batcher.begun]⟩
  · intro s a s' _ inv hs
    obtain ⟨made, inv⟩ := inv
    exact inv.step hs

/-- However the calls of the threads interleave: a synchronous sink has got the records of each
thread in the order of its program, and an asynchronous sink emits, in one order that agrees with
every thread's, what the threads have given to it, each record once and with the message that the
worker reads. -/
theorem sinks_follow_programs (h : (machine limits program).Reachable s) :
    ∃ made : ι → List (Operation σ κ), (∀ i, made i ++ s.todo i = program i) ∧
      (∀ i, Batcher.ofThread i s.written = (made i).flatMap Operation.writes) ∧
      ∀ k, ∃ order : List (ι × LogRecord), ∃ done : List LogRecord,
        done ++ (s.asyncSinks k).pending ++ (s.asyncSinks k).batcher.queue = order.map Prod.snd ∧
        (s.asyncSinks k).Emits done ∧
        ∀ i, Batcher.ofThread i order ++ ((s.asyncSinks k).batcher.callers i).pending =
          (made i).flatMap (Operation.enqueues k) := by
  obtain ⟨made, inv⟩ := made_of_reachable h
  refine ⟨made, inv.split, inv.written, fun k => ?_⟩
  obtain ⟨history, run, begun⟩ := inv.enqueued k
  obtain ⟨pushed, order⟩ := Batcher.queued_of_execution run
  obtain ⟨done, emission⟩ := OpenTelemetry.emission_of_reachable (sink_reachable h k)
  refine ⟨Batcher.queued history, done, ?_, emission.emits, fun i => (order i).trans (begun i)⟩
  rw [emission.pushed (sink_reachable h k), pushed]

/-- A step of the program is one of the sink `k`, or changes nothing there. -/
theorem sink_step (hs : step limits s a = some s') (k : κ) :
    s'.asyncSinks k = s.asyncSinks k ∨
      ∃ x, OpenTelemetry.step (limits k) (s.asyncSinks k) x = some (s'.asyncSinks k) := by
  have at_sink {k' : κ} {x : OpenTelemetry.Action ι} {sink : OpenTelemetry.State ι}
      (hsink : OpenTelemetry.step (limits k') (s.asyncSinks k') x = some sink) :
      Function.update s.asyncSinks k' sink k = s.asyncSinks k ∨
        ∃ x, OpenTelemetry.step (limits k) (s.asyncSinks k) x =
          some (Function.update s.asyncSinks k' sink k) := by
    by_cases same : k = k'
    · subst same
      exact Or.inr ⟨x, by simpa using hsink⟩
    · exact Or.inl (Function.update_of_ne same _ _)
  cases steps_of_step hs with
  | writes => exact Or.inl rfl
  | begins _ _ _ _ _ _ _ _ _ hsink | sink _ _ _ _ hsink => exact at_sink hsink

/-- The thread is inside a `Flush` of `k` that waits for at least `n` records, or has `n` records
emitted there, or is not so far in its program. -/
def Barrier (k : κ) (i : ι) (after : List (Operation σ κ)) (n : Nat) (s : State ι σ κ) : Prop :=
  n ≤ (s.asyncSinks k).batcher.pushed.length ∧
    ((∃ before, s.todo i = before ++ .flush (.asyncSink k) :: after) ∨
      ((s.asyncSinks k).batcher.callers i).Flushes n ∨ n ≤ (s.asyncSinks k).emitted.length)

theorem barrier_step {k : κ} {i : ι} {after : List (Operation σ κ)} {n : Nat}
    (reachable : (machine limits program).Reachable s) (inv : Barrier k i after n s)
    (hs : step limits s a = some s') : Barrier k i after n s' := by
  obtain ⟨enough, phase⟩ := inv
  have moved := sink_step hs k
  have grown : n ≤ (s'.asyncSinks k).batcher.pushed.length := by
    obtain same | ⟨x, hx⟩ := moved
    · exact same ▸ enough
    · exact enough.trans (OpenTelemetry.history_step hx).1.length_le
  refine ⟨grown, ?_⟩
  obtain ⟨before, todo⟩ | inside | emitted := phase
  · have other {j : ι} (ne : i ≠ j) (rest : List (Operation σ κ)) :
        Function.update s.todo j rest i = before ++ .flush (.asyncSink k) :: after := by
      rw [Function.update_of_ne ne, todo]
    -- a call of the thread itself is the awaited one, or one before it
    have own {op : Operation σ κ} {rest : List (Operation σ κ)} (next : s.todo i = op :: rest) :
        (∃ before, rest = before ++ .flush (.asyncSink k) :: after) ∨
          op = .flush (.asyncSink k) := by
      rw [todo] at next
      cases before with
      | nil => exact Or.inr (List.cons_eq_cons.mp next).1.symm
      | cons _ before => exact Or.inl ⟨before, (List.cons_eq_cons.mp next).2.symm⟩
    cases steps_of_step hs with
    | sink => exact Or.inl ⟨before, todo⟩
    | writes j op rest _ next begins =>
        by_cases same : i = j
        · subst same
          obtain later | now := own next
          · exact Or.inl (by simpa using later)
          · subst now
            cases begins
        · exact Or.inl ⟨before, other same rest⟩
    | begins j op rest k' a sink _ next begins hsink =>
        by_cases same : i = j
        · subst same
          obtain later | now := own next
          · exact Or.inl (by simpa using later)
          · subst now
            cases begins
            have flushing :
                (Function.update s.asyncSinks k sink k).batcher.callers i = .flushing := by
              rw [Function.update_self]
              exact OpenTelemetry.flushing_of_begin hsink
            exact Or.inr (Or.inl (flushing ▸ trivial))
        · exact Or.inl ⟨before, other same rest⟩
  · obtain same | ⟨x, hx⟩ := moved
    · exact Or.inr (Or.inl (same ▸ inside))
    · have grown := (OpenTelemetry.history_step hx).2.length_le
      obtain still | emitted :=
        OpenTelemetry.flushes_step (sink_reachable reachable k) hx inside enough
      · exact Or.inr (Or.inl still)
      · exact Or.inr (Or.inr (emitted.trans grown))
  · obtain same | ⟨x, hx⟩ := moved
    · exact Or.inr (Or.inr (same ▸ emitted))
    · exact Or.inr (Or.inr (emitted.trans (OpenTelemetry.history_step hx).2.length_le))

/-- A thread that is past a `Flush` of an asynchronous sink has seen everything emitted that had
been enqueued there at some time before it came to this call. -/
theorem flushed_through {k : κ} {i : ι} {before after : List (Operation σ κ)}
    {labels : List (Action ι κ)} (h : (machine limits program).Reachable s)
    (todo : s.todo i = before ++ .flush (.asyncSink k) :: after)
    (run : (machine limits program).run s labels = some s')
    (past : (s'.todo i).length ≤ after.length)
    (idle : (s'.asyncSinks k).batcher.callers i = .idle) :
    (s.asyncSinks k).batcher.pushed.length ≤ (s'.asyncSinks k).emitted.length := by
  have barrier : Barrier k i after (s.asyncSinks k).batcher.pushed.length s' := by
    apply h.run_kept (I := Barrier k i after (s.asyncSinks k).batcher.pushed.length) _ _ run
    · exact fun _ _ _ reachable inv hs => barrier_step reachable inv hs
    · exact ⟨Nat.le_refl _, Or.inl ⟨before, todo⟩⟩
  obtain ⟨earlier, todo⟩ | inside | emitted := barrier.2
  · rw [todo] at past
    simp at past
    omega
  · simp [idle, Batcher.CallerPoint.Flushes] at inside
  · exact emitted

theorem todo_suffix (hs : step limits s a = some s') (i : ι) : s'.todo i <:+ s.todo i := by
  have made {j : ι} {op : Operation σ κ} {rest : List (Operation σ κ)}
      (todo : s.todo j = op :: rest) : Function.update s.todo j rest i <:+ s.todo i := by
    by_cases same : i = j
    · subst same
      rw [Function.update_self, todo]
      exact List.suffix_cons op rest
    · rw [Function.update_of_ne same]
  cases steps_of_step hs with
  | sink => exact List.suffix_rfl
  | writes _ _ _ _ todo | begins _ _ _ _ _ _ _ todo => exact made todo

/-- Nothing is left to do but calls of `Flush`, and no record is on its way to the sink `k`. -/
structure Closing (k : κ) (pushed : List LogRecord) (s : State ι σ κ) : Prop where
  flushes : ∀ i, ∀ op ∈ s.todo i, ∃ call, op = .flush call
  settled : ∀ i, ((s.asyncSinks k).batcher.callers i).pending = []
  pushed : (s.asyncSinks k).batcher.pushed = pushed

theorem closing_step {k : κ} {pushed : List LogRecord} (inv : Closing k pushed s)
    (hs : step limits s a = some s') : Closing k pushed s' := by
  have flushes (i : ι) (op : Operation σ κ) (member : op ∈ s'.todo i) : ∃ call, op = .flush call :=
    inv.flushes i op ((todo_suffix hs i).subset member)
  have at_sink {k' : κ} {x : OpenTelemetry.Action ι} {sink : OpenTelemetry.State ι}
      (hsink : OpenTelemetry.step (limits k') (s.asyncSinks k') x = some sink)
      (nothing : ∀ i, begunBy i x = []) :
      (∀ i, ((Function.update s.asyncSinks k' sink k).batcher.callers i).pending = []) ∧
        (Function.update s.asyncSinks k' sink k).batcher.pushed = pushed := by
    by_cases same : k = k'
    · subst same
      rw [Function.update_self, ← inv.pushed]
      exact OpenTelemetry.settled_step hsink inv.settled fun b hb i => by
        subst hb
        exact nothing i
    · rw [Function.update_of_ne same]
      exact ⟨inv.settled, inv.pushed⟩
  cases steps_of_step hs with
  | sink k' x sink inner hsink =>
      obtain ⟨settled, pushed⟩ := at_sink hsink fun i => begunBy_inner i inner
      exact ⟨flushes, settled, pushed⟩
  | writes => exact ⟨flushes, inv.settled, inv.pushed⟩
  | begins i op rest k' x sink _ todo begins hsink =>
      obtain ⟨call, rfl⟩ := inv.flushes i op (todo ▸ List.mem_cons_self)
      have nothing (j : ι) : begunBy j (.batcher x) = [] := by
        cases call <;> cases begins
        rfl
      obtain ⟨settled, pushed⟩ := at_sink hsink nothing
      exact ⟨flushes, settled, pushed⟩

end

section Logger
variable (log : Logger σ κ) (statements : ι → List Call) (last : ι)

/-- The calls of each thread for its log statements, and those of `~Logger` on thread `last`. -/
def loggerProgram [DecidableEq ι] (i : ι) : List (Operation σ κ) :=
  (statements i).flatMap (fun c => (log.call c).map .call) ++
    if i = last then log.flush.map .flush else []

/-- What a thread's statements hand over, each `f` of its record, unless it is a
`Log(level, message)` for a level that is not enabled. -/
def handedOver {α : Type*} (f : LogRecord → List α) (i : ι) : List α :=
  (statements i).flatMap fun c =>
    if c.method = .log c.method.level ∧ log.enabled c.method.level = false then []
    else f (c.record log.name)

variable [DecidableEq ι] {log statements last}

theorem flatMap_loggerProgram {α : Type*} {f : Operation σ κ → List α}
    (flush : ∀ call, f (.flush call) = []) (i : ι) :
    (loggerProgram log statements last i).flatMap f =
      handedOver log statements (fun record =>
        log.sinks.flatMap (fun sink => f (.call (.emit sink record))) ++
          log.asyncSinks.flatMap fun sink => f (.call (.enqueue sink record))) i := by
  have closing : (if i = last then log.flush.map .flush else []).flatMap f = [] := by
    split <;> simp [flush]
  rw [loggerProgram, List.flatMap_append, closing, List.append_nil, List.flatMap_assoc, handedOver]
  congr 1
  funext c
  rw [List.flatMap_map, Logger.call_eq]
  split
  · rfl
  · simp [Logger.deliver, List.flatMap_append, List.flatMap_map]

theorem writes_loggerProgram (i : ι) :
    (loggerProgram log statements last i).flatMap Operation.writes =
      handedOver log statements (fun record => log.sinks.map fun sink => (sink, record)) i := by
  have none (record : LogRecord) : log.asyncSinks.flatMap (fun sink =>
      (.call (.enqueue sink record) : Operation σ κ).writes) = [] := by
    simp [Operation.writes]
  rw [flatMap_loggerProgram fun _ => rfl]
  simp only [none, List.append_nil]
  simp [Operation.writes, ← List.map_eq_flatMap]

/-- A sink gets a record as often as it is in the list. -/
theorem flatMap_ite_eq {α β : Type*} [DecidableEq α] (a : α) (b : β) (xs : List α) :
    xs.flatMap (fun x => if x = a then [b] else []) = List.replicate (xs.count a) b := by
  induction xs with
  | nil => rfl
  | cons x xs ih =>
      by_cases same : x = a
      · simp [same, ih, List.replicate_succ]
      · simp [same, ih]

theorem enqueues_loggerProgram [DecidableEq κ] (k : κ) (i : ι) :
    (loggerProgram log statements last i).flatMap (Operation.enqueues k) =
      handedOver log statements (List.replicate (log.asyncSinks.count k)) i := by
  have none (record : LogRecord) : log.sinks.flatMap (fun sink =>
      (.call (.emit sink record) : Operation σ κ).enqueues k) = [] := by
    simp [Operation.enqueues]
  rw [flatMap_loggerProgram fun _ => rfl]
  simp only [none, List.nil_append]
  simp [Operation.enqueues, flatMap_ite_eq]

section
variable [DecidableEq κ] [Fintype κ] {limits : κ → Nat} {s s' : State ι σ κ}

/-- When all statements have been made and their calls have returned, and then `~Logger` has
returned from its flushes, whatever the threads and workers did in between: every synchronous sink
has got, and every asynchronous sink has emitted, exactly the records of the statements that are
not filtered out, those of each thread in their order; the messages of the emitted ones are as
logged if their texts have lasted. -/
theorem destroyed_logger_lost_nothing {labels : List (Action ι κ)}
    (h : (machine limits (loggerProgram log statements last)).Reachable s)
    (made : ∀ i, s.todo i = if i = last then log.flush.map .flush else [])
    (returned : ∀ i, s.Idle i)
    (run : (machine limits (loggerProgram log statements last)).run s labels = some s')
    (through : s'.todo last = []) (idle : s'.Idle last) :
    (∀ i, Batcher.ofThread i s'.written =
      handedOver log statements (fun record => log.sinks.map fun sink => (sink, record)) i) ∧
    ∀ k ∈ log.asyncSinks, ∃ order : List (ι × LogRecord),
      (s'.asyncSinks k).Emits (order.map Prod.snd) ∧ ∀ i, Batcher.ofThread i order =
        handedOver log statements (List.replicate (log.asyncSinks.count k)) i := by
  have reachable := h.run run
  obtain ⟨calls, inv⟩ := made_of_reachable reachable
  have whole (i : ι) : calls i = loggerProgram log statements last i := by
    have shrunk : s'.todo i <:+ s.todo i := by
      apply h.run_kept (I := fun t => t.todo i <:+ s.todo i) _ List.suffix_rfl run
      exact fun t a t' _ shrunk ht => (todo_suffix ht i).trans shrunk
    have split := inv.split i
    by_cases same : i = last
    · subst same
      simpa [through] using split
    · rw [made i, if_neg same, List.suffix_nil] at shrunk
      simpa [shrunk] using split
  constructor
  · intro i
    rw [inv.written, whole, writes_loggerProgram]
  · intro k member
    have closing : Closing k (s.asyncSinks k).batcher.pushed s' := by
      apply h.run_kept (I := Closing k (s.asyncSinks k).batcher.pushed) _ _ run
      · exact fun _ _ _ _ inv hs => closing_step inv hs
      · constructor
        · intro i op member
          rw [made i] at member
          split at member
          · obtain ⟨call, _, rfl⟩ := List.mem_map.mp member
            exact ⟨call, rfl⟩
          · cases member
        · intro i
          simp [idle_iff.mp (returned i) k, Batcher.CallerPoint.pending]
        · rfl
    obtain ⟨history, execution, begun⟩ := inv.enqueued k
    obtain ⟨pushed, order⟩ := Batcher.queued_of_execution execution
    obtain ⟨done, emission⟩ := OpenTelemetry.emission_of_reachable (sink_reachable reachable k)
    have split := emission.pushed (sink_reachable reachable k)
    have all : done = (s'.asyncSinks k).batcher.pushed := by
      obtain ⟨before, after, flushes⟩ := List.append_of_mem
        (show .flush (.asyncSink k) ∈ log.flush.map (.flush : FlushCall σ κ → Operation σ κ) by
          simp [Logger.flush, member])
      have enough := flushed_through h (by rw [made last, if_pos rfl, flushes]) run
        (by simp [through]) (idle_iff.mp idle k)
      have count := emission.length
      rw [List.append_assoc] at split
      apply List.IsPrefix.eq_of_length_le ⟨_, split⟩
      rw [closing.pushed]
      omega
    refine ⟨Batcher.queued history, ?_, fun i => ?_⟩
    · have emits := emission.emits
      rwa [all, pushed] at emits
    · have records := (order i).trans (begun i)
      rwa [closing.settled i, List.append_nil, whole, enqueues_loggerProgram] at records

def plainLogger : Logger Unit Unit where
  level := .info
  name := str "main"
  sinks := [()]
  asyncSinks := [()]

/-- Two threads log at the same time, and the one that came second queues its record first. -/
def loggingRun : List (Action Bool Unit) :=
  [.perform true, .perform false, .perform true, .perform false,
    .sink () (.batcher (.pushLocked false)), .sink () (.batcher (.pushLocked true)),
    .sink () (.batcher (.signal true none)), .sink () (.batcher (.signal false none))]

def closingRun : List (Action Bool Unit) :=
  [.perform true, .perform true, .sink () (.batcher .workerLocked),
    .sink () (.batcher (.flushLocked true)), .sink () (.emit (str "hi")),
    .sink () (.emit (str "hi")), .sink () (.batcher .consumerReturns),
    .sink () (.batcher .workerLocked), .sink () (.batcher (.flushLocked true)),
    .sink () (.batcher (.leaveFlush true))]

abbrev sampleMachine : Machine (State Bool Unit Unit) (Action Bool Unit) :=
  machine (fun _ => 0) (loggerProgram plainLogger (fun _ => [Logger.quietInfo]) true)

theorem loggingRun_ends : ∃ s, sampleMachine.run sampleMachine.start loggingRun = some s ∧
    (∀ i, s.todo i = if i = true then plainLogger.flush.map .flush else []) ∧ (∀ i, s.Idle i) ∧
    ∃ t, sampleMachine.run s closingRun = some t ∧ t.todo true = [] ∧ t.Idle true ∧
      (t.asyncSinks ()).Lasting := by
  refine ⟨_, rfl, ?_, ?_, _, rfl, rfl, fun _ => rfl, by decide⟩
  · intro i
    cases i <;> rfl
  · intro i k
    cases i <;> rfl

theorem destroyed_logger_lost_nothing_sample : ∃ s t labels,
    sampleMachine.Reachable s ∧ sampleMachine.run s labels = some t ∧
      ∃ order : List (Bool × LogRecord),
        (order.map Prod.snd).map OpenTelemetry.logRecordToOpenTelemetry =
          (t.asyncSinks ()).emitted.map .ok ∧
        ∀ i, Batcher.ofThread i order = [Logger.quietInfo.record (str "main")] := by
  obtain ⟨s, logging, made, returned, t, closing, through, idle, lasting⟩ := loggingRun_ends
  have reachable := Machine.reachable_of_run loggingRun logging
  obtain ⟨order, emits, each⟩ := (destroyed_logger_lost_nothing reachable made returned closing
    through idle).2 () (List.mem_singleton.mpr rfl)
  exact ⟨s, t, closingRun, reachable, closing, order, emits.lasting lasting, each⟩

theorem sinks_follow_programs_sample : ∃ s,
    sampleMachine.run sampleMachine.start loggingRun = some s ∧
    (∀ i, (s.todo i).length = if i = true then 2 else 0) ∧
    ∃ order : List (Bool × LogRecord), ∃ done : List LogRecord,
      done ++ (s.asyncSinks ()).pending ++ (s.asyncSinks ()).batcher.queue = order.map Prod.snd ∧
      (s.asyncSinks ()).Emits done := by
  obtain ⟨s, logging, made, _⟩ := loggingRun_ends
  obtain ⟨calls, _, _, sinks⟩ := sinks_follow_programs (Machine.reachable_of_run loggingRun logging)
  obtain ⟨order, done, split, emits, _⟩ := sinks ()
  refine ⟨s, logging, ?_, order, done, split, emits⟩
  intro i
  rw [made i]
  cases i <;> rfl

end
end Logger

end Logrin.Threads
