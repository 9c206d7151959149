import Logrin.LogFactory

/-!
The life cycle of the factory over every run of a program. The invariant ties the instance and
each cached logger to the `Init` in effect, and a held logger to the `Init` it comes from.
-/

namespace Logrin.LogFactory
open Logrin.Library

universe u v
variable {σ : Type u} {α : Type v}

/-- The instance is what the `Init` in effect makes of it, and so is each cached logger. -/
structure Built (factory : LogFactory σ α) (config : Config σ α) : Prop where
  level : factory.level = config.level
  sinks : config.level ≠ .off → factory.sinks = config.sinks
  asyncSinks : config.level ≠ .off → factory.asyncSinks = config.asyncSinks
  loggers : ∀ name log, factory.loggers.lookup name = some log → log = config.logger name

def Represents : Option (LogFactory σ α) → Option (Config σ α) → Prop
  | none, none => True
  | some factory, some config => Built factory config
  | _, _ => False

/-- A logger without a sink given to `Init`. -/
structure Clean (given : σ → Bool) (givenAsync : α → Bool) (log : Logger σ α) : Prop where
  sinks : ∀ sink ∈ log.sinks, given sink = false
  asyncSinks : ∀ sink ∈ log.asyncSinks, givenAsync sink = false

/-- A sink call that does not reach a sink given to `Init`. -/
def Outside (given : σ → Bool) (givenAsync : α → Bool) : SinkCall σ α → Prop
  | .emit sink _ => given sink = false
  | .enqueue sink _ => givenAsync sink = false

def State.origins (s : State σ α) : List (Option Nat) := s.held.map Held.since

structure Inv (given : σ → Bool) (givenAsync : α → Bool) (s : State σ α)
    (config : Option (Config σ α)) : Prop where
  represents : Represents s.current config
  dummies : ∀ held ∈ s.held, held.since = none → Clean given givenAsync held.logger
  bound : ∀ k, some k ∈ s.origins → k ≤ s.inits
  cached : some s.inits ∈ s.origins → ∀ factory, s.current = some factory →
    ∃ name, name ∈ factory.loggers
  outside : ∀ made ∈ s.delivered, made.1 = none → Outside given givenAsync made.2
  through : ∀ made ∈ s.delivered, ∀ k, made.1 = some k → some k ∈ s.origins

variable {given : σ → Bool} {givenAsync : α → Bool} {s s' : State σ α}
  {config : Option (Config σ α)}

theorem represents_isSome {current : Option (LogFactory σ α)}
    (represents : Represents current config) : current.isSome = config.isSome := by
  cases current <;> cases config <;> first | rfl | cases represents

theorem built_of_current {factory : LogFactory σ α} (represents : Represents s.current config)
    (current : s.current = some factory) : ∃ c, config = some c ∧ Built factory c := by
  rw [current] at represents
  cases config with
  | none => cases represents
  | some c => exact ⟨c, rfl, represents⟩

theorem built_of_effective {c : Config σ α} (represents : Represents s.current config)
    (effect : config = some c) : ∃ factory, s.current = some factory ∧ Built factory c := by
  rw [effect] at represents
  cases current : s.current with
  | none => rw [current] at represents; cases represents
  | some factory =>
      rw [current] at represents
      exact ⟨factory, rfl, represents⟩

theorem inv_start : Inv given givenAsync (State.start : State σ α) none where
  represents := trivial
  dummies := fun _ member => by cases member
  bound := fun _ member => by cases member
  cached := fun member => by cases member
  outside := fun _ member => by cases member
  through := fun _ member => by cases member

section Init

theorem initVec_eq (current : Option (LogFactory σ α)) (level : LogLevel) (sinks : List σ)
    (asyncSinks : List α) :
    initVec current level sinks asyncSinks = initList current level sinks asyncSinks := by
  cases current with
  | some factory => rfl
  | none => by_cases off : level = .off <;> simp [initVec, initList, off]

/-- An `Init` after the first one changes nothing. -/
theorem init_again {factory : LogFactory σ α} (current : s.current = some factory)
    (level : LogLevel) (sinks : List σ) (asyncSinks : List α) :
    s.init (initList s.current level sinks asyncSinks) = s := by
  obtain ⟨_, _, _, _, _⟩ := s
  cases current
  rfl

theorem built_new (level : LogLevel) (sinks : List σ) (asyncSinks : List α) :
    Built
      { level := level
        sinks := if level = .off then [] else sinks
        asyncSinks := if level = .off then [] else asyncSinks
        loggers := ∅ }
      { level := level, sinks := sinks, asyncSinks := asyncSinks } where
  level := rfl
  sinks := fun on => if_neg on
  asyncSinks := fun on => if_neg on
  loggers := fun name log found => by cases found

theorem inv_init (inv : Inv given givenAsync s config) (level : LogLevel) (sinks : List σ)
    (asyncSinks : List α) :
    Inv given givenAsync (s.init (initList s.current level sinks asyncSinks))
      (config.or (some { level := level, sinks := sinks, asyncSinks := asyncSinks })) := by
  cases current : s.current with
  | some factory =>
      obtain ⟨c, rfl, _⟩ := built_of_current inv.represents current
      rw [← current, init_again current]
      exact inv
  | none =>
      have initial : config = none := by
        have same := represents_isSome inv.represents
        rw [current] at same
        exact Option.not_isSome_iff_eq_none.mp (by simp [← same])
      rw [initial]
      exact {
        represents := built_new level sinks asyncSinks
        dummies := inv.dummies
        bound := fun k member => by
          have old := inv.bound k member
          simp only [State.init, current, Option.isNone_none, if_true]
          omega
        cached := fun member => by
          simp only [State.init, current, Option.isNone_none, if_true] at member
          have old := inv.bound _ member
          omega
        outside := inv.outside
        through := inv.through }

end Init

section Get

theorem origin_some {k : Nat} (h : s.origin = some k) :
    k = s.inits ∧ ∃ factory, s.current = some factory ∧ factory.level ≠ .off := by
  simp only [State.origin] at h
  split at h
  · next factory current =>
      split at h
      · cases h
      · next on => exact ⟨(Option.some.inj h).symm, factory, current, on⟩
  · cases h

/-- While an `Init` with a level is in effect, `Get` returns the logger it stands for and has it
in the cache afterwards. -/
theorem get_built {factory : LogFactory σ α} {config : Config σ α} (built : Built factory config)
    (on : config.level ≠ .off) (name : Bytes) :
    ∃ factory', get (some factory) name = (config.logger name, some factory') ∧
      Built factory' config ∧ name ∈ factory'.loggers := by
  have on' : factory.level ≠ .off := built.level ▸ on
  cases found : factory.loggers.lookup name with
  | some log =>
      refine ⟨factory, ?_, built, AList.lookup_isSome.mp (by rw [found]; rfl)⟩
      simp only [get, if_neg on', found, built.loggers name log found]
  | none =>
      have log : Logger.mk factory.level name factory.sinks factory.asyncSinks =
          config.logger name := by
        rw [built.level, built.sinks on, built.asyncSinks on]
        rfl
      refine ⟨{ factory with loggers := AList.insert name (config.logger name) factory.loggers },
        ?_, ?_, ?_⟩
      · simp only [get, if_neg on', found, log]
      · exact {
          level := built.level
          sinks := built.sinks
          asyncSinks := built.asyncSinks
          loggers := fun other log found => by
            by_cases same : other = name
            · rw [same, AList.lookup_insert] at found
              rw [same]
              exact (Option.some.inj found).symm
            · rw [AList.lookup_insert_ne same] at found
              exact built.loggers other log found }
      · exact (AList.mem_insert _).mpr (.inl rfl)

/-- Otherwise `Get` returns the dummy logger and changes nothing. -/
theorem get_dummy (dummy : s.origin = none) (name : Bytes) :
    get s.current name = (dummyLogger, s.current) := by
  simp only [State.origin] at dummy
  split at dummy
  · next factory current =>
      split at dummy
      · next off => simp only [current, get, if_pos off]
      · cases dummy
  · next current => simp only [current, get]

end Get

section Steps

theorem dummyLogger_clean : Clean given givenAsync (dummyLogger : Logger σ α) where
  sinks := fun _ member => by cases member
  asyncSinks := fun _ member => by cases member

theorem get_held (s : State σ α) (name : Bytes) : (s.get name).held =
    s.held ++ [{ logger := (get s.current name).1, since := s.origin }] := rfl

theorem origins_get (s : State σ α) (name : Bytes) :
    (s.get name).origins = s.origins ++ [s.origin] := by
  simp [State.origins, State.get]

theorem get_current (s : State σ α) (name : Bytes) :
    (s.get name).current = (get s.current name).2 := rfl

theorem inv_get (inv : Inv given givenAsync s config) (name : Bytes) :
    Inv given givenAsync (s.get name) config := by
  cases origin : s.origin with
  | none =>
      have same := get_dummy origin name
      have kept : (s.get name).current = s.current := by rw [get_current, same]
      have origins : ∀ k, some k ∈ (s.get name).origins ↔ some k ∈ s.origins := by
        simp [origins_get, origin]
      exact {
        represents := kept ▸ inv.represents
        dummies := fun held member dummy => by
          rw [get_held, same] at member
          cases List.mem_append.mp member with
          | inl old => exact inv.dummies held old dummy
          | inr new =>
              rw [List.mem_singleton.mp new]
              exact dummyLogger_clean
        bound := fun k member => inv.bound k ((origins k).mp member)
        cached := fun member => kept ▸ inv.cached ((origins _).mp member)
        outside := inv.outside
        through := fun made member k since => (origins k).mpr (inv.through made member k since) }
  | some k =>
      obtain ⟨rfl, factory, current, on⟩ := origin_some origin
      obtain ⟨c, rfl, built⟩ := built_of_current inv.represents current
      obtain ⟨factory', returned, built', inside⟩ := get_built built (built.level ▸ on) name
      have next : (s.get name).current = some factory' := by
        rw [get_current, current, returned]
      exact {
        represents := next ▸ built'
        dummies := fun held member dummy => by
          rw [get_held, origin] at member
          cases List.mem_append.mp member with
          | inl old => exact inv.dummies held old dummy
          | inr new =>
              rw [List.mem_singleton.mp new] at dummy
              cases dummy
        bound := fun k member => by
          rw [origins_get, origin] at member
          cases List.mem_append.mp member with
          | inl old => exact inv.bound k old
          | inr new => exact Nat.le_of_eq (Option.some.inj (List.mem_singleton.mp new))
        cached := fun _ factory'' same => by
          obtain rfl := Option.some.inj (next.symm.trans same)
          exact ⟨name, inside⟩
        outside := inv.outside
        through := fun made member k since => by
          rw [origins_get]
          exact List.mem_append_left _ (inv.through made member k since) }

theorem shutdown_current (s : State σ α) : s.shutdown.current = none := by
  simp only [State.shutdown, LogFactory.shutdown]
  split <;> rfl

theorem inv_shutdown (inv : Inv given givenAsync s config) :
    Inv given givenAsync s.shutdown none where
  represents := by
    rw [shutdown_current]
    trivial
  dummies := inv.dummies
  bound := inv.bound
  cached := fun _ factory current => by
    rw [shutdown_current] at current
    cases current
  outside := inv.outside
  through := inv.through

/-- The sink calls of a statement go to sinks of its logger. -/
theorem mem_call {log : Logger σ α} {c : Call} {made : SinkCall σ α} (member : made ∈ log.call c) :
    (∃ sink ∈ log.sinks, ∃ record, made = .emit sink record) ∨
      ∃ sink ∈ log.asyncSinks, ∃ record, made = .enqueue sink record := by
  rw [Logger.call_eq] at member
  split at member
  · cases member
  · simp only [Logger.deliver, List.mem_append, List.mem_map] at member
    obtain ⟨sink, inside, rfl⟩ | ⟨sink, inside, rfl⟩ := member
    · exact .inl ⟨sink, inside, _, rfl⟩
    · exact .inr ⟨sink, inside, _, rfl⟩

theorem Clean.outside {log : Logger σ α} (clean : Clean given givenAsync log) {c : Call}
    {made : SinkCall σ α} (member : made ∈ log.call c) : Outside given givenAsync made := by
  obtain ⟨sink, inside, _, rfl⟩ | ⟨sink, inside, _, rfl⟩ := mem_call member
  · exact clean.sinks sink inside
  · exact clean.asyncSinks sink inside

theorem inv_log (inv : Inv given givenAsync s config) {i : Nat} {c : Call}
    (step : s.log i c = some s') : Inv given givenAsync s' config := by
  obtain ⟨held, found, rfl⟩ := Option.map_eq_some_iff.mp step
  have member := List.mem_of_getElem? found
  exact {
    represents := inv.represents
    dummies := inv.dummies
    bound := inv.bound
    cached := inv.cached
    outside := fun made logged dummy => by
      cases List.mem_append.mp logged with
      | inl old => exact inv.outside made old dummy
      | inr new =>
          obtain ⟨made, inside, rfl⟩ := List.mem_map.mp new
          exact (inv.dummies held member dummy).outside inside
    through := fun made logged k since => by
      cases List.mem_append.mp logged with
      | inl old => exact inv.through made old k since
      | inr new =>
          obtain ⟨made, _, rfl⟩ := List.mem_map.mp new
          exact List.mem_map.mpr ⟨held, member, since⟩ }

/-- Changing a held logger so that no sink given to `Init` is added. -/
theorem inv_modify (inv : Inv given givenAsync s config) {i : Nat}
    {change : Logger σ α → Logger σ α}
    (clean : ∀ log, Clean given givenAsync log → Clean given givenAsync (change log))
    (step : s.modify i change = some s') : Inv given givenAsync s' config := by
  obtain ⟨held, found, rfl⟩ := Option.map_eq_some_iff.mp step
  have member := List.mem_of_getElem? found
  have origins : (s.held.set i { held with logger := change held.logger }).map Held.since =
      s.origins := by
    obtain ⟨bound, rfl⟩ := List.getElem?_eq_some_iff.mp found
    rw [List.map_set, State.origins]
    apply List.ext_getElem?
    intro j
    rw [List.getElem?_set]
    split
    · next same =>
        subst same
        simp [bound]
    · rfl
  have back : ∀ k, some k ∈ s.origins →
      some k ∈ (s.held.set i { held with logger := change held.logger }).map Held.since := by
    rw [origins]
    exact fun _ inside => inside
  exact {
    represents := inv.represents
    dummies := fun h changed dummy => by
      obtain same | rfl := List.mem_or_eq_of_mem_set changed
      · exact inv.dummies h same dummy
      · exact clean held.logger (inv.dummies held member dummy)
    bound := fun k inside => inv.bound k (origins ▸ inside)
    cached := fun inside => inv.cached (origins ▸ inside)
    outside := inv.outside
    through := fun made logged k since => back k (inv.through made logged k since) }

theorem Clean.addSink {log : Logger σ α} {sink : σ} (new : given sink = false)
    (clean : Clean given givenAsync log) : Clean given givenAsync (log.addSink sink) where
  sinks := List.forall_mem_append.mpr ⟨clean.sinks, fun _ member =>
    List.mem_singleton.mp member ▸ new⟩
  asyncSinks := clean.asyncSinks

theorem Clean.addAsyncSink {log : Logger σ α} {sink : α} (new : givenAsync sink = false)
    (clean : Clean given givenAsync log) : Clean given givenAsync (log.addAsyncSink sink) where
  sinks := clean.sinks
  asyncSinks := List.forall_mem_append.mpr ⟨clean.asyncSinks, fun _ member =>
    List.mem_singleton.mp member ▸ new⟩

theorem Clean.withName {log : Logger σ α} (name : Bytes) (clean : Clean given givenAsync log) :
    Clean given givenAsync (log.withName name) where
  sinks := clean.sinks
  asyncSinks := clean.asyncSinks

/-- Every step keeps the invariant, with the life cycle beside it. -/
theorem inv_step (inv : Inv given givenAsync s config) {action : Action σ α}
    (step : (machine given givenAsync).step s action = some s') :
    Inv given givenAsync s' (lifeCycle config action) := by
  cases action with
  | initList level sinks asyncSinks =>
      obtain ⟨_, step⟩ := Option.ite_none_right_eq_some.mp step
      obtain rfl := Option.some.inj step
      exact inv_init inv level sinks asyncSinks
  | initVec level sinks asyncSinks =>
      obtain ⟨_, step⟩ := Option.ite_none_right_eq_some.mp step
      obtain rfl := Option.some.inj step
      rw [initVec_eq]
      exact inv_init inv level sinks asyncSinks
  | get name =>
      obtain rfl := Option.some.inj step
      exact inv_get inv name
  | shutdown =>
      obtain rfl := Option.some.inj step
      exact inv_shutdown inv
  | log i call => exact inv_log inv step
  | addSink i sink =>
      obtain ⟨new, step⟩ := Option.ite_none_left_eq_some.mp step
      exact inv_modify inv (fun _ => Clean.addSink (eq_false_of_ne_true new)) step
  | addAsyncSink i sink =>
      obtain ⟨new, step⟩ := Option.ite_none_left_eq_some.mp step
      exact inv_modify inv (fun _ => Clean.addAsyncSink (eq_false_of_ne_true new)) step
  | withName i name => exact inv_modify inv (fun _ => Clean.withName name) step

/-- The invariant after a run, with the `Init` that the actions leave in effect. -/
theorem inv_run {actions : List (Action σ α)}
    (run : (machine given givenAsync).run .start actions = some s) :
    Inv given givenAsync s (effective actions) :=
  Machine.run_foldl (R := Inv given givenAsync) (fun _ _ _ _ inv step => inv_step inv step) inv_start
    run

end Steps

/-- What the factory promises in the state that a run of the program has led to. -/
structure Promises (given : σ → Bool) (givenAsync : α → Bool) (actions : List (Action σ α))
    (s : State σ α) : Prop where
  initialised : s.current.isSome = (effective actions).isSome
  overloads : ∀ level sinks asyncSinks,
    (machine given givenAsync).step s (.initList level sinks asyncSinks) =
      (machine given givenAsync).step s (.initVec level sinks asyncSinks)
  once : (effective actions).isSome = true → ∀ level sinks asyncSinks s',
    (machine given givenAsync).step s (.initList level sinks asyncSinks) = some s' → s' = s
  returned : ∀ config, effective actions = some config → config.level ≠ .off → ∀ name, ∃ s',
    (machine given givenAsync).step s (.get name) = some s' ∧
      s'.held = s.held ++ [{ logger := config.logger name, since := some s.inits }]
  dummies : (∀ config, effective actions = some config → config.level = .off) → ∀ name, ∃ s',
    (machine given givenAsync).step s (.get name) = some s' ∧
      s'.held = s.held ++ [{ logger := dummyLogger, since := none }]
  apart : ∀ made ∈ s.delivered, made.1 = none → Outside given givenAsync made.2
  flushes : ∃ s' flushes, (machine given givenAsync).step s .shutdown = some s' ∧
    s'.current = none ∧ s'.flushed = s.flushed ++ flushes ∧
    ∀ config, effective actions = some config →
      (∀ sink ∈ config.sinks, ∀ record,
        (some s.inits, .emit sink record) ∈ s.delivered → .sink sink ∈ flushes) ∧
      ∀ sink ∈ config.asyncSinks, ∀ record,
        (some s.inits, .enqueue sink record) ∈ s.delivered → .asyncSink sink ∈ flushes

section Promises
variable {actions : List (Action σ α)}

theorem origin_on {factory : LogFactory σ α} (current : s.current = some factory)
    (on : factory.level ≠ .off) : s.origin = some s.inits := by
  simp only [State.origin, current, if_neg on]

/-- A record that went through a logger of the `Init` in effect means a cached logger, whose
flush covers all sinks of that `Init`. -/
theorem cached_flush (inv : Inv given givenAsync s config) {c : Config σ α}
    (same : config = some c) {made : SinkCall σ α} (logged : (some s.inits, made) ∈ s.delivered)
    (name : Bytes) :
    ∀ flush ∈ (c.logger name).flush, flush ∈ (LogFactory.shutdown s.current).1 := by
  obtain ⟨factory, current, built⟩ := built_of_effective inv.represents same
  obtain ⟨key, inside⟩ := inv.cached (inv.through _ logged _ rfl) factory current
  obtain ⟨log, found⟩ := Option.isSome_iff_exists.mp (AList.lookup_isSome.mpr inside)
  obtain rfl := built.loggers key log found
  intro flush member
  have entry : flush ∈ factory.loggers.entries.flatMap fun entry => entry.2.flush :=
    List.mem_flatMap.mpr ⟨_, AList.mem_lookup_iff.mp found, member⟩
  simp only [current, LogFactory.shutdown]
  exact List.mem_append_left _ entry

/-- The life cycle of the factory, for every run from the start. -/
theorem life_cycle (run : (machine given givenAsync).run .start actions = some s) :
    Promises given givenAsync actions s where
  initialised := represents_isSome (inv_run run).represents
  overloads := fun level sinks asyncSinks => by simp only [machine, initVec_eq]
  once := fun effect level sinks asyncSinks s' step => by
    obtain ⟨_, step⟩ := Option.ite_none_right_eq_some.mp step
    obtain rfl := Option.some.inj step
    obtain ⟨c, same⟩ := Option.isSome_iff_exists.mp effect
    obtain ⟨factory, current, _⟩ := built_of_effective (inv_run run).represents same
    exact init_again current level sinks asyncSinks
  returned := fun config same on name => by
    obtain ⟨factory, current, built⟩ := built_of_effective (inv_run run).represents same
    obtain ⟨factory', returned, _⟩ := get_built built on name
    refine ⟨s.get name, rfl, ?_⟩
    rw [get_held, current, returned, origin_on current (built.level ▸ on)]
  dummies := fun off name => by
    have dummy : s.origin = none := by
      cases origin : s.origin with
      | none => rfl
      | some k =>
          obtain ⟨_, factory, current, on⟩ := origin_some origin
          obtain ⟨config, same, built⟩ := built_of_current (inv_run run).represents current
          exact absurd (built.level.trans (off config same)) on
    exact ⟨s.get name, rfl, by rw [get_held, get_dummy dummy, dummy]⟩
  apart := (inv_run run).outside
  flushes := by
    refine ⟨s.shutdown, (LogFactory.shutdown s.current).1, rfl, shutdown_current s, rfl, ?_⟩
    intro config same
    constructor
    · intro sink member record logged
      apply cached_flush (inv_run run) same logged []
      exact List.mem_append_left _ (List.mem_map_of_mem member)
    · intro sink member record logged
      apply cached_flush (inv_run run) same logged []
      exact List.mem_append_right _ (List.mem_map_of_mem member)

/-- `Info` with nothing attached. -/
def hello : Call where
  method := .info
  message := { text := str "hello", location := LogRecord.default.location, time := 0 }
  attributes := []

/-- A program that logs through a dummy, then initialises, logs and adds a sink of its own. -/
def sampleProgram : List (Action Nat Nat) :=
  [.get (str "early"), .addSink 0 100, .log 0 hello, .initList .info [1] [2],
    .get (str "main"), .addSink 1 101, .log 1 hello]

theorem life_cycle_sample : ∃ s,
    (machine (fun sink => sink < 10) (fun sink => sink < 10)).run .start sampleProgram = some s ∧
      Promises (fun sink => sink < 10) (fun sink => sink < 10) sampleProgram s :=
  ⟨_, rfl, life_cycle rfl⟩

end Promises
end Logrin.LogFactory
