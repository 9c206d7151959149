import Logrin.Library.Machine
import Logrin.Logger

/-!
`LogFactory`: the global instance with its cache of loggers, and what a program does with it
and with the loggers it returns.
-/

namespace Logrin
open Logrin.Library

universe u v
variable {σ : Type u} {α : Type v}

/-- A call of `Flush` on a sink. -/
inductive FlushCall (σ : Type u) (α : Type v) where
  | sink (sink : σ)
  | asyncSink (sink : α)
  deriving DecidableEq

namespace Logger

def withName (log : Logger σ α) (name : Bytes) : Logger σ α := { log with name := name }

def addSink (log : Logger σ α) (sink : σ) : Logger σ α := { log with sinks := log.sinks ++ [sink] }

def addAsyncSink (log : Logger σ α) (sink : α) : Logger σ α :=
  { log with asyncSinks := log.asyncSinks ++ [sink] }

def flush (log : Logger σ α) : List (FlushCall σ α) :=
  log.sinks.map .sink ++ log.asyncSinks.map .asyncSink

end Logger

structure LogFactory (σ : Type u) (α : Type v) where
  level : LogLevel
  sinks : List σ
  asyncSinks : List α
  loggers : AList (fun _ : Bytes => Logger σ α)

namespace LogFactory

def dummyLogger : Logger σ α where
  level := .off
  name := str "a dummy logger"
  sinks := []
  asyncSinks := []

/-- `LogFactory::Get`, over the global `instance`. -/
def get (current : Option (LogFactory σ α)) (name : Bytes) :
    Logger σ α × Option (LogFactory σ α) :=
  match current with
  | none => (dummyLogger, none)
  | some factory =>
      if factory.level = .off then (dummyLogger, some factory)
      else
        match factory.loggers.lookup name with
        | some log => (log, some factory)
        | none =>
            let log : Logger σ α :=
              { level := factory.level
                name := name
                sinks := factory.sinks
                asyncSinks := factory.asyncSinks }
            (log, some { factory with loggers := AList.insert name log factory.loggers })

/-- `LogFactory::Init` with initializer lists. -/
def initList (current : Option (LogFactory σ α)) (level : LogLevel) (sinks : List σ)
    (asyncSinks : List α) : Option (LogFactory σ α) :=
  match current with
  | some factory => some factory
  | none =>
      some
        { level := level
          sinks := if level = .off then [] else sinks
          asyncSinks := if level = .off then [] else asyncSinks
          loggers := ∅ }

/-- `LogFactory::Init` with vectors, which are cleared. -/
def initVec (current : Option (LogFactory σ α)) (level : LogLevel) (sinks : List σ)
    (asyncSinks : List α) : Option (LogFactory σ α) :=
  match current with
  | some factory => some factory
  | none =>
      let (sinks1, asyncSinks1) := if level = .off then ([], []) else (sinks, asyncSinks)
      some { level := level, sinks := sinks1, asyncSinks := asyncSinks1, loggers := ∅ }

/-- `LogFactory::Shutdown`: the loggers are flushed by the loop, and again by their destructors
when the instance is deleted. -/
def shutdown (current : Option (LogFactory σ α)) :
    List (FlushCall σ α) × Option (LogFactory σ α) :=
  match current with
  | none => ([], none)
  | some factory =>
      let flushes := factory.loggers.entries.flatMap fun entry => entry.2.flush
      (flushes ++ flushes, none)

/-- What a program does with the factory, and with the `i`th logger that `Get` returned. -/
inductive Action (σ : Type u) (α : Type v) where
  | initList (level : LogLevel) (sinks : List σ) (asyncSinks : List α)
  | initVec (level : LogLevel) (sinks : List σ) (asyncSinks : List α)
  | get (name : Bytes)
  | shutdown
  | log (i : Nat) (call : Call)
  | addSink (i : Nat) (sink : σ)
  | addAsyncSink (i : Nat) (sink : α)
  | withName (i : Nat) (name : Bytes)

/-- A logger in the hands of the program, with the number of the `Init` in effect when `Get`
returned it; without one when that was a dummy. -/
structure Held (σ : Type u) (α : Type v) where
  logger : Logger σ α
  since : Option Nat

structure State (σ : Type u) (α : Type v) where
  /-- the global `instance` -/
  current : Option (LogFactory σ α)
  /-- how many calls of `Init` have had an effect -/
  inits : Nat
  held : List (Held σ α)
  /-- the sink calls made through held loggers, with where the logger came from -/
  delivered : List (Option Nat × SinkCall σ α)
  /-- the calls of `Flush` made by `Shutdown` -/
  flushed : List (FlushCall σ α)

namespace State

def start : State σ α where
  current := none
  inits := 0
  held := []
  delivered := []
  flushed := []

/-- A call of `Init`, given what it makes of the instance. -/
def init (s : State σ α) (next : Option (LogFactory σ α)) : State σ α :=
  { s with
    current := next
    inits := if s.current.isNone then s.inits + 1 else s.inits }

/-- Where a logger returned now comes from. -/
def origin (s : State σ α) : Option Nat :=
  match s.current with
  | some factory => if factory.level = .off then none else some s.inits
  | none => none

def get (s : State σ α) (name : Bytes) : State σ α :=
  let (log, current) := LogFactory.get s.current name
  { s with current := current, held := s.held ++ [{ logger := log, since := s.origin }] }

def shutdown (s : State σ α) : State σ α :=
  let (flushes, current) := LogFactory.shutdown s.current
  { s with current := current, flushed := s.flushed ++ flushes }

def log (s : State σ α) (i : Nat) (call : Call) : Option (State σ α) :=
  s.held[i]?.map fun held =>
    { s with
      delivered := s.delivered ++ (held.logger.call call).map fun made => (held.since, made) }

def modify (s : State σ α) (i : Nat) (change : Logger σ α → Logger σ α) : Option (State σ α) :=
  s.held[i]?.map fun held =>
    { s with held := s.held.set i { held with logger := change held.logger } }

end State

/-- The program's steps. Calls of `Init` take their sinks from those `given`, calls of `AddSink`
and `AddAsyncSink` from the others. -/
def machine (given : σ → Bool) (givenAsync : α → Bool) : Machine (State σ α) (Action σ α) where
  start := .start
  step s
    | .initList level sinks asyncSinks =>
        if sinks.all given && asyncSinks.all givenAsync then
          some (s.init (initList s.current level sinks asyncSinks))
        else none
    | .initVec level sinks asyncSinks =>
        if sinks.all given && asyncSinks.all givenAsync then
          some (s.init (initVec s.current level sinks asyncSinks))
        else none
    | .get name => some (s.get name)
    | .shutdown => some s.shutdown
    | .log i call => s.log i call
    | .addSink i sink => if given sink then none else s.modify i fun log => log.addSink sink
    | .addAsyncSink i sink =>
        if givenAsync sink then none else s.modify i fun log => log.addAsyncSink sink
    | .withName i name => s.modify i fun log => log.withName name

structure Config (σ : Type u) (α : Type v) where
  level : LogLevel
  sinks : List σ
  asyncSinks : List α

/-- The logger of a name that an `Init` stands for. -/
def Config.logger (config : Config σ α) (name : Bytes) : Logger σ α where
  level := config.level
  name := name
  sinks := config.sinks
  asyncSinks := config.asyncSinks

/-- The life cycle: an `Init` is in effect from the first call until `Shutdown`. -/
def lifeCycle (effective : Option (Config σ α)) : Action σ α → Option (Config σ α)
  | .initList level sinks asyncSinks | .initVec level sinks asyncSinks =>
      effective.or (some { level := level, sinks := sinks, asyncSinks := asyncSinks })
  | .shutdown => none
  | .get _ | .log _ _ | .addSink _ _ | .addAsyncSink _ _ | .withName _ _ => effective

/-- The first `Init` since the start or the last `Shutdown`. -/
def effective (actions : List (Action σ α)) : Option (Config σ α) := actions.foldl lifeCycle none

end LogFactory
end Logrin
