import Logrin.ConsoleThreads
import Logrin.LoggerThreads
import Logrin.PatternMeaning

/-!
A program from its log statements to the bytes on a handle: what the threads' statements hand over
to a `Console` sink with a pattern, and what the sink prints of it, is what the pattern means.
-/

namespace Logrin.Console
open Logrin.Library
open Logrin.Pattern (Env Item)
open Logrin.Formatter (Config Terminal lineText)
open Logrin.Formatter.Pattern (Denotes denotes_of_parse)

variable {ι κ α : Type}

/-- The lines that stand for some records, each formatted on its thread. The platform depends on
the thread, whose hash `%T` shows. -/
def printed (config : Config) (env : ι → Env) (term : Terminal) (before after items : List Item)
    (records : List (ι × LogRecord)) : Bytes :=
  records.flatMap fun x => lineText config (env x.1) term x.2 before after items ++ str "\n"

/-- The calls of `Emit` that thread `i` makes for its statements. -/
def emits [DecidableEq ι] (log : Logger κ α) (statements : ι → List Logrin.Call) (last i : ι) :
    List (κ × LogRecord) :=
  (Threads.loggerProgram log statements last i).flatMap Threads.Operation.writes

section Prints
variable {fault : Bytes} {sinks : κ → Shared ι} {formats : κ → ι → Format} {handles : κ → Int32}
  {start : Descriptors} {k : κ} {log : Logger κ α} {statements : ι → List Logrin.Call} {last : ι}

variable [DecidableEq ι] [DecidableEq κ]

end Prints

end Logrin.Console
