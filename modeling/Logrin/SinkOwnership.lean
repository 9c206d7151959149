import Logrin.Library.Shared
import Logrin.LogFactoryLifeCycle
import Mathlib.Data.List.Perm.Basic

/-!
Who owns the sinks. A logger's sinks are shared pointers; the constructor and `AddSink` make new
ones from raw pointers, copies of a logger and `LogFactory` share them, and a sink is deleted with
the last of its pointers. The trace of what is done to the sinks shows when that goes wrong.
-/

namespace Logrin
open Logrin.Library

universe u
variable {ω : Type u}

namespace Logger

def pointers (log : Logger Nat Nat) : List Nat := log.sinks ++ log.asyncSinks

end Logger

namespace LogFactory

def pointers (factory : LogFactory Nat Nat) : List Nat :=
  factory.sinks ++ factory.asyncSinks ++
    factory.loggers.entries.flatMap fun entry => entry.2.pointers

end LogFactory

namespace Ownership

def flushed : FlushCall Nat Nat → Nat
  | .sink p | .asyncSink p => p

def called : SinkCall Nat Nat → Nat
  | .emit p _ | .enqueue p _ => p

/-- `~Logger`: its sinks are flushed, and then its members go, the last one first. -/
def destroyLogger (blocks : Blocks ω) (log : Logger Nat Nat) : Blocks ω :=
  (blocks.useAll (log.flush.map flushed)).releaseAll (log.asyncSinks ++ log.sinks)

/-- The pointers of a logger that `LogFactory::Get` makes: it is copied into a pair, from there
into the cache, and the pair goes. The local logger is the result if its copy is elided, and goes
after it is copied if not. -/
def makeLogger (blocks : Blocks ω) (log : Logger Nat Nat) (elided : Bool) : Blocks ω :=
  let blocks := ((blocks.retainAll log.pointers).retainAll log.pointers).retainAll log.pointers
  let blocks := destroyLogger blocks log
  if elided then blocks else destroyLogger (blocks.retainAll log.pointers) log

/-- `LogFactory::Shutdown`: the loggers are flushed, and then the instance is deleted. -/
def deleteFactory (blocks : Blocks ω) (factory : LogFactory Nat Nat) : Blocks ω :=
  let entries := factory.loggers.entries
  let blocks := blocks.useAll (entries.flatMap fun entry => entry.2.flush.map flushed)
  let blocks := entries.foldl (fun blocks entry => destroyLogger blocks entry.2) blocks
  blocks.releaseAll (factory.asyncSinks ++ factory.sinks)

structure State (ω : Type u) where
  blocks : Blocks ω
  /-- the global `instance` -/
  current : Option (LogFactory Nat Nat)
  /-- the loggers in the hands of the program -/
  loggers : List (Logger Nat Nat)
  /-- the other shared pointers in its hands -/
  shared : List Nat

inductive Action (ω : Type u) where
  | share (sink : ω)
  | reset (p : Nat)
  | construct (name : Bytes) (level : LogLevel) (sinks asyncSinks : List ω)
  | addSink (i : Nat) (sink : ω)
  | addAsyncSink (i : Nat) (sink : ω)
  | withName (i : Nat) (name : Bytes)
  | copy (i : Nat)
  | destroy (i : Nat)
  | log (i : Nat) (call : Call)
  | initList (level : LogLevel) (sinks asyncSinks : List Nat)
  | initVec (level : LogLevel) (sinks asyncSinks : List Nat)
  | get (name : Bytes) (elided : Bool)
  | shutdown

/-- The raw pointers that become shared pointers. -/
def Action.raw : Action ω → List ω
  | .share sink | .addSink _ sink | .addAsyncSink _ sink => [sink]
  | .construct _ _ sinks asyncSinks => sinks ++ asyncSinks
  | .reset _ | .withName _ _ | .copy _ | .destroy _ | .log _ _ | .initList _ _ _ | .initVec _ _ _
  | .get _ _ | .shutdown => []

namespace State

def start : State ω where
  blocks := .empty
  current := none
  loggers := []
  shared := []

def held (s : State ω) : List Nat :=
  s.shared ++ (s.loggers.flatMap Logger.pointers ++ s.current.elim [] LogFactory.pointers)

/-- `Logger(name, level, sinks, asyncSinks)`. -/
def construct (s : State ω) (name : Bytes) (level : LogLevel) (sinks asyncSinks : List ω) :
    State ω :=
  let blocks := s.blocks.adoptAll sinks
  let log : Logger Nat Nat :=
    { level := level
      name := name
      sinks := s.blocks.fresh sinks.length
      asyncSinks := blocks.fresh asyncSinks.length }
  { s with blocks := blocks.adoptAll asyncSinks, loggers := s.loggers ++ [log] }

def modify (s : State ω) (i : Nat) (change : Logger Nat Nat → Logger Nat Nat) :
    Option (State ω) :=
  s.loggers[i]?.map fun log => { s with loggers := s.loggers.set i (change log) }

/-- A call of `Init`, given what it makes of the instance, which copies the pointers it keeps. -/
def init (s : State ω) (next : Option (LogFactory Nat Nat)) : State ω :=
  { s with
    blocks := if s.current.isNone then s.blocks.retainAll (next.elim [] LogFactory.pointers)
      else s.blocks
    current := next }

/-- `LogFactory::Get`: a logger from the cache, and the dummy, are copied for the caller. -/
def get (s : State ω) (name : Bytes) (elided : Bool) : State ω :=
  let (log, next) := LogFactory.get s.current name
  let made := s.current.any fun factory =>
    factory.level ≠ .off && (factory.loggers.lookup name).isNone
  { s with
    blocks := if made then makeLogger s.blocks log elided else s.blocks.retainAll log.pointers
    current := next
    loggers := s.loggers ++ [log] }

end State

def machine (ω : Type u) : Machine (State ω) (Action ω) where
  start := .start
  step s
    | .share sink =>
        some { s with blocks := s.blocks.adopt sink, shared := s.blocks.counts.length :: s.shared }
    | .reset p =>
        if p ∈ s.shared then
          some { s with blocks := s.blocks.release p, shared := s.shared.erase p }
        else none
    | .construct name level sinks asyncSinks => some (s.construct name level sinks asyncSinks)
    | .addSink i sink =>
        { s with blocks := s.blocks.adopt sink }.modify i fun log =>
          log.addSink s.blocks.counts.length
    | .addAsyncSink i sink =>
        { s with blocks := s.blocks.adopt sink }.modify i fun log =>
          log.addAsyncSink s.blocks.counts.length
    | .withName i name => s.modify i fun log => log.withName name
    | .copy i =>
        s.loggers[i]?.map fun log =>
          { s with blocks := s.blocks.retainAll log.pointers, loggers := s.loggers ++ [log] }
    | .destroy i =>
        s.loggers[i]?.map fun log =>
          { s with blocks := destroyLogger s.blocks log, loggers := s.loggers.eraseIdx i }
    | .log i call =>
        s.loggers[i]?.map fun log =>
          { s with blocks := s.blocks.useAll ((log.call call).map called) }
    | .initList level sinks asyncSinks =>
        if sinks ++ asyncSinks ⊆ s.shared then
          some (s.init (LogFactory.initList s.current level sinks asyncSinks))
        else none
    | .initVec level sinks asyncSinks =>
        if sinks ++ asyncSinks ⊆ s.shared then
          some (s.init (LogFactory.initVec s.current level sinks asyncSinks))
        else none
    | .get name elided => some (s.get name elided)
    | .shutdown =>
        some { s with
          blocks := s.current.elim s.blocks (deleteFactory s.blocks)
          current := (LogFactory.shutdown s.current).2 }

/-- What holds after a program's actions. -/
structure Sound [DecidableEq ω] (actions : List (Action ω)) (s : State ω) : Prop where
  /-- a sink has been deleted once for each raw pointer, except for the blocks still in use -/
  deleted : ∀ o, s.blocks.touched.count (.delete o) + s.blocks.alive o =
    (actions.flatMap Action.raw).count o
  /-- a sink handed over once is not touched after it has been deleted -/
  intact : ∀ o, (actions.flatMap Action.raw).count o ≤ 1 → Blocks.Intact s.blocks.touched o
  /-- and is deleted with the last of its pointers -/
  last : ∀ o, (actions.flatMap Action.raw).count o = 1 →
    (.delete o ∈ s.blocks.touched ↔ ∀ p ∈ s.held, s.blocks.object p ≠ some o)
  /-- nothing is left behind -/
  gone : s.held = [] → ∀ o,
    s.blocks.touched.count (.delete o) = (actions.flatMap Action.raw).count o

section Pointers
variable {s : State ω} {log : Logger Nat Nat} {i : Nat}

theorem flushed_flush (log : Logger Nat Nat) : log.flush.map flushed = log.pointers := by
  have sinks : flushed ∘ FlushCall.sink = id := rfl
  have asyncSinks : flushed ∘ FlushCall.asyncSink = id := rfl
  simp [Logger.flush, Logger.pointers, sinks, asyncSinks]

/-- A log statement calls no sink but those of its logger. -/
theorem called_pointers (log : Logger Nat Nat) (c : Call) :
    ∀ p ∈ (log.call c).map called, p ∈ log.pointers := by
  intro p member
  obtain ⟨made, inside, rfl⟩ := List.mem_map.mp member
  obtain ⟨sink, held, _, rfl⟩ | ⟨sink, held, _, rfl⟩ := LogFactory.mem_call inside
  · exact List.mem_append_left _ held
  · exact List.mem_append_right _ held

theorem perm_logger (found : s.loggers[i]? = some log) :
    s.held.Perm (log.pointers ++ { s with loggers := s.loggers.eraseIdx i }.held) := by
  obtain ⟨inside, rfl⟩ := List.getElem?_eq_some_iff.mp found
  have moved := (List.getElem_cons_eraseIdx_perm inside).symm.flatMap_right Logger.pointers
  rw [List.perm_iff_count] at moved ⊢
  intro p
  have count := moved p
  simp only [State.held, List.count_append, List.flatMap_cons] at count ⊢
  omega

theorem perm_set (found : s.loggers[i]? = some log) (log' : Logger Nat Nat) :
    { s with loggers := s.loggers.set i log' }.held.Perm
      (log'.pointers ++ { s with loggers := s.loggers.eraseIdx i }.held) := by
  obtain ⟨inside, rfl⟩ := List.getElem?_eq_some_iff.mp found
  have moved := (List.set_perm_cons_eraseIdx inside log').flatMap_right Logger.pointers
  rw [List.perm_iff_count] at moved ⊢
  intro p
  have count := moved p
  simp only [State.held, List.count_append, List.flatMap_cons] at count ⊢
  omega

end Pointers

section Steps
variable [DecidableEq ω] {b : Blocks ω} {s s' : State ω} {held : List Nat}
  {log : Logger Nat Nat} {factory : LogFactory Nat Nat} {i : Nat} {a : Action ω}

theorem owned_destroyLogger (h : b.Owned (log.pointers ++ held)) :
    (destroyLogger b log).Owned held := by
  apply Blocks.Owned.releaseAll
  rw [flushed_flush]
  refine (h.useAll fun p member => List.mem_append_left _ member).perm ?_
  exact List.perm_append_comm.append_right held

theorem owned_destroyLoggers {entries : List (Sigma fun _ : Bytes => Logger Nat Nat)}
    (h : b.Owned ((entries.flatMap fun entry => entry.2.pointers) ++ held)) :
    (entries.foldl (fun b entry => destroyLogger b entry.2) b).Owned held := by
  induction entries generalizing b with
  | nil => exact h
  | cons entry entries ih =>
      rw [List.flatMap_cons, List.append_assoc] at h
      exact ih (owned_destroyLogger h)

theorem owned_deleteFactory (h : b.Owned (factory.pointers ++ held)) :
    (deleteFactory b factory).Owned held := by
  apply Blocks.Owned.releaseAll
  apply owned_destroyLoggers
  simp only [flushed_flush]
  refine (h.useAll fun p member => ?_).perm ?_
  · exact List.mem_append_left _ (List.mem_append_right _ member)
  · rw [List.perm_iff_count]
    intro p
    simp only [LogFactory.pointers, List.count_append]
    omega

theorem owned_modify (new : List Nat) {change : Logger Nat Nat → Logger Nat Nat}
    (h : s.blocks.Owned (new ++ s.held))
    (pointers : ∀ log, (change log).pointers.Perm (new ++ log.pointers))
    (step : s.modify i change = some s') : s'.blocks.Owned s'.held := by
  obtain ⟨log, found, rfl⟩ := Option.map_eq_some_iff.mp step
  refine h.perm ?_
  have before := perm_logger found
  have after := perm_set found (change log)
  have grown := pointers log
  rw [List.perm_iff_count] at before after grown ⊢
  intro p
  have old := before p
  have new_ := after p
  have more := grown p
  simp only [List.count_append] at old new_ more ⊢
  omega

theorem owned_construct (h : s.blocks.Owned s.held) (name : Bytes) (level : LogLevel)
    (sinks asyncSinks : List ω) :
    (s.construct name level sinks asyncSinks).blocks.Owned
      (s.construct name level sinks asyncSinks).held := by
  refine ((h.adoptAll sinks).adoptAll asyncSinks).perm ?_
  rw [List.perm_iff_count]
  intro p
  simp only [State.construct, State.held, Logger.pointers, List.flatMap_append,
    List.flatMap_singleton, List.count_append]
  omega

theorem owned_init (h : s.blocks.Owned s.held) {level : LogLevel} {sinks asyncSinks : List Nat}
    (inside : sinks ++ asyncSinks ⊆ s.shared) :
    (s.init (LogFactory.initList s.current level sinks asyncSinks)).blocks.Owned
      (s.init (LogFactory.initList s.current level sinks asyncSinks)).held := by
  cases current : s.current with
  | some factory =>
      have same : s.init (LogFactory.initList (some factory) level sinks asyncSinks) = s := by
        obtain ⟨_, _, _, _⟩ := s
        cases current
        rfl
      rw [same]
      exact h
  | none =>
      obtain ⟨factory, new, kept⟩ : ∃ factory,
          LogFactory.initList none level sinks asyncSinks = some factory ∧
            factory.pointers ⊆ sinks ++ asyncSinks := by
        refine ⟨_, rfl, ?_⟩
        intro p member
        by_cases off : level = .off
        · simp [LogFactory.pointers, off] at member
        · simpa [LogFactory.pointers, off] using member
      simp only [State.init, current, Option.isNone_none, if_true, new, Option.elim]
      refine (h.retainAll fun p member => ?_).perm ?_
      · exact List.mem_append_left _ (inside (kept member))
      · rw [List.perm_iff_count]
        intro p
        simp only [State.held, current, Option.elim, List.count_append, List.count_nil]
        omega

theorem owned_makeLogger (h : b.Owned held) (inside : ∀ p ∈ log.pointers, p ∈ held)
    (elided : Bool) :
    (makeLogger b log elided).Owned (log.pointers ++ (log.pointers ++ held)) := by
  have again {held' : List Nat} : ∀ p ∈ log.pointers, p ∈ log.pointers ++ held' :=
    fun p member => List.mem_append_left held' member
  have copied := ((h.retainAll inside).retainAll again).retainAll again
  have left := owned_destroyLogger copied
  cases elided with
  | true => exact left
  | false => exact owned_destroyLogger (left.retainAll again)

/-- A logger that comes from the factory shares pointers of the factory. -/
theorem owned_get (h : s.blocks.Owned s.held) (name : Bytes) (elided : Bool) :
    (s.get name elided).blocks.Owned (s.get name elided).held := by
  have returned : ∀ {b : Blocks ω} {log : Logger Nat Nat} {next : Option (LogFactory Nat Nat)},
      b.Owned (s.shared ++ (s.loggers.flatMap Logger.pointers ++
        next.elim [] LogFactory.pointers)) →
      (∀ p ∈ log.pointers, p ∈ next.elim [] LogFactory.pointers) →
      (b.retainAll log.pointers).Owned
        { s with current := next, loggers := s.loggers ++ [log] }.held := by
    intro b log next owned inside
    refine (owned.retainAll fun p member => ?_).perm ?_
    · exact List.mem_append_right _ (List.mem_append_right _ (inside p member))
    · rw [List.perm_iff_count]
      intro p
      simp only [State.held, List.flatMap_append, List.flatMap_singleton, List.count_append]
      omega
  have owned := h
  simp only [State.held] at owned
  cases current : s.current with
  | none =>
      rw [current] at owned
      simp only [State.get, current, LogFactory.get, Option.any_none, Bool.false_eq_true, if_false]
      exact returned owned fun p member => by cases member
  | some factory =>
      rw [current] at owned
      by_cases off : factory.level = .off
      · simp only [State.get, current, LogFactory.get, Option.any_some, off, ne_eq, not_true,
          decide_false, Bool.false_and, Bool.false_eq_true, if_false]
        exact returned owned fun p member => by cases member
      · cases found : factory.loggers.lookup name with
        | some log =>
            simp only [State.get, current, LogFactory.get, if_neg off, found, Option.any_some,
              Option.isNone_some, Bool.and_false, Bool.false_eq_true, if_false]
            refine returned owned fun p member => ?_
            have entry := AList.mem_lookup_iff.mp found
            exact List.mem_append_right _ (List.mem_flatMap.mpr ⟨_, entry, member⟩)
        | none =>
            simp only [State.get, current, LogFactory.get, found, Option.any_some,
              Option.isNone_none, ne_eq, off, not_false_eq_true, decide_true, Bool.and_self,
              if_true, if_false]
            have entries : (AList.insert name
                { level := factory.level
                  name := name
                  sinks := factory.sinks
                  asyncSinks := factory.asyncSinks } factory.loggers).entries =
                ⟨name, _⟩ :: factory.loggers.entries :=
              AList.entries_insert_of_notMem (AList.lookup_eq_none.mp found)
            refine (owned_makeLogger owned (fun p member => ?_) elided).perm ?_
            · exact List.mem_append_right _
                (List.mem_append_right _ (List.mem_append_left _ member))
            · rw [List.perm_iff_count]
              intro p
              simp only [State.held, LogFactory.pointers, Logger.pointers, Option.elim, entries,
                List.flatMap_append, List.flatMap_cons, List.flatMap_nil, List.count_append,
                List.count_nil]
              omega

/-- Every step keeps the counts. -/
theorem owned_step (h : s.blocks.Owned s.held) (step : (machine ω).step s a = some s') :
    s'.blocks.Owned s'.held := by
  cases a with
  | share sink =>
      cases step
      exact h.adopt sink
  | reset p =>
      obtain ⟨member, step⟩ := Option.ite_none_right_eq_some.mp step
      cases step
      refine Blocks.Owned.release (h.perm ?_)
      exact (List.perm_cons_erase member).append_right _
  | construct name level sinks asyncSinks =>
      cases step
      exact owned_construct h name level sinks asyncSinks
  | addSink i sink =>
      refine owned_modify [s.blocks.counts.length] (h.adopt sink) (fun log => ?_) step
      rw [List.perm_iff_count]
      intro p
      simp only [Logger.pointers, Logger.addSink, List.count_append]
      omega
  | addAsyncSink i sink =>
      refine owned_modify [s.blocks.counts.length] (h.adopt sink) (fun log => ?_) step
      rw [List.perm_iff_count]
      intro p
      simp only [Logger.pointers, Logger.addAsyncSink, List.count_append]
      omega
  | withName i name =>
      refine owned_modify [] h (fun log => ?_) step
      exact .refl _
  | copy i =>
      obtain ⟨log, found, rfl⟩ := Option.map_eq_some_iff.mp step
      have inside : ∀ p ∈ log.pointers, p ∈ s.held := fun p member =>
        (perm_logger found).mem_iff.mpr (List.mem_append_left _ member)
      refine (h.retainAll inside).perm ?_
      rw [List.perm_iff_count]
      intro p
      simp only [State.held, List.flatMap_append, List.flatMap_singleton, List.count_append]
      omega
  | destroy i =>
      obtain ⟨log, found, rfl⟩ := Option.map_eq_some_iff.mp step
      exact owned_destroyLogger (h.perm (perm_logger found))
  | log i call =>
      obtain ⟨log, found, rfl⟩ := Option.map_eq_some_iff.mp step
      refine h.useAll fun p member => ?_
      exact (perm_logger found).mem_iff.mpr
        (List.mem_append_left _ (called_pointers log call p member))
  | initList level sinks asyncSinks =>
      obtain ⟨inside, step⟩ := Option.ite_none_right_eq_some.mp step
      cases step
      exact owned_init h inside
  | initVec level sinks asyncSinks =>
      obtain ⟨inside, step⟩ := Option.ite_none_right_eq_some.mp step
      rw [LogFactory.initVec_eq] at step
      cases step
      exact owned_init h inside
  | get name elided =>
      cases step
      exact owned_get h name elided
  | shutdown =>
      cases step
      cases current : s.current with
      | none =>
          rw [State.held, current] at h
          exact h
      | some factory =>
          apply owned_deleteFactory
          refine h.perm ?_
          rw [List.perm_iff_count]
          intro p
          simp only [State.held, current, LogFactory.shutdown, Option.elim, List.count_append,
            List.count_nil]
          omega

@[simp] theorem adoptions_destroyLogger (b : Blocks ω) (log : Logger Nat Nat) (o : ω) :
    (destroyLogger b log).adoptions o = b.adoptions o := by
  simp [destroyLogger]

@[simp] theorem adoptions_makeLogger (b : Blocks ω) (log : Logger Nat Nat) (elided : Bool)
    (o : ω) : (makeLogger b log elided).adoptions o = b.adoptions o := by
  cases elided <;> simp [makeLogger]

@[simp] theorem adoptions_deleteFactory (b : Blocks ω) (factory : LogFactory Nat Nat) (o : ω) :
    (deleteFactory b factory).adoptions o = b.adoptions o := by
  have loggers : ∀ (entries : List (Sigma fun _ : Bytes => Logger Nat Nat)) (b : Blocks ω),
      (entries.foldl (fun b entry => destroyLogger b entry.2) b).adoptions o = b.adoptions o := by
    intro entries
    induction entries with
    | nil => exact fun _ => rfl
    | cons entry entries ih =>
        intro b
        rw [List.foldl_cons, ih, adoptions_destroyLogger]
  simp [deleteFactory, loggers]

/-- A step makes blocks for the raw pointers it is given, and no others. -/
theorem adoptions_step (step : (machine ω).step s a = some s') (o : ω) :
    s'.blocks.adoptions o = s.blocks.adoptions o + a.raw.count o := by
  cases a with
  | share sink =>
      cases step
      exact Blocks.adoptions_adopt s.blocks sink o
  | construct name level sinks asyncSinks =>
      cases step
      simp only [State.construct, Blocks.adoptions_adoptAll, Action.raw, List.count_append]
      omega
  | addSink i sink | addAsyncSink i sink =>
      obtain ⟨log, _, rfl⟩ := Option.map_eq_some_iff.mp step
      exact Blocks.adoptions_adopt s.blocks sink o
  | withName i name =>
      obtain ⟨log, _, rfl⟩ := Option.map_eq_some_iff.mp step
      rfl
  | copy i | destroy i | log i call =>
      obtain ⟨log, _, rfl⟩ := Option.map_eq_some_iff.mp step
      simp [Action.raw]
  | reset p =>
      obtain ⟨_, step⟩ := Option.ite_none_right_eq_some.mp step
      cases step
      simp [Action.raw]
  | initList level sinks asyncSinks | initVec level sinks asyncSinks =>
      obtain ⟨_, step⟩ := Option.ite_none_right_eq_some.mp step
      cases step
      simp only [State.init]
      split <;> simp [Action.raw]
  | get name elided =>
      cases step
      simp only [State.get]
      split <;> simp [Action.raw]
  | shutdown =>
      cases step
      cases s.current <;> simp [Action.raw]

/-- Sinks are deleted as often as they were handed over as raw pointers, and no sooner than with
the last shared pointer. A sink handed over only once is so deleted at most once and never touched
afterwards, whatever the program does with loggers, copies of loggers and the factory. -/
theorem sinks_owned {actions : List (Action ω)} (run : (machine ω).run .start actions = some s) :
    Sound actions s := by
  obtain ⟨owned, given⟩ : s.blocks.Owned s.held ∧
      ∀ o, s.blocks.adoptions o = (actions.flatMap Action.raw).count o := by
    rw [List.flatMap_eq_foldl]
    refine Machine.run_foldl (R := fun s given => s.blocks.Owned s.held ∧
      ∀ o, s.blocks.adoptions o = List.count o given) ?_ ?_ run
    · intro s a s' given both step
      obtain ⟨owned, count⟩ := both
      refine ⟨owned_step owned step, fun o => ?_⟩
      rw [adoptions_step step, count, List.count_append]
    · exact ⟨Blocks.owned_empty, fun o => rfl⟩
  exact {
    deleted := fun o => given o ▸ owned.deleted o
    intact := fun o once => owned.intact o (given o ▸ once)
    last := fun o once => owned.deleted_iff (given o ▸ once)
    gone := fun none o => by
      rw [none] at owned
      rw [owned.gone, given] }

/-- Two loggers given the same raw pointer delete it twice; one that is shared is deleted once. -/
def sampleProgram : List (Action Nat) :=
  [.construct (str "a") .info [1] [2], .construct (str "b") .info [1] [], .share 3,
    .initList .info [3] [], .get (str "c") false, .shutdown, .destroy 0, .destroy 0, .destroy 0,
    .reset 3]

theorem sinks_owned_sample : ∃ s, (machine Nat).run .start sampleProgram = some s ∧
    Sound sampleProgram s ∧ s.held = [] :=
  ⟨_, rfl, sinks_owned rfl, rfl⟩

end Steps

end Ownership
end Logrin
