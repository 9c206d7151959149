import Logrin.LogRecord
import Logrin.PatternParser

/-!
The formatting methods of `ParsedPattern`. Each appends to its output argument only, so it
is modelled by the bytes it appends, or by the fault it runs into. What the platform
computes (calendar time, the text of a `double`, the thread's hash) is a parameter.
-/

namespace Logrin.Pattern
open Logrin.Library

/-- What ends a call early: `substr` past the end, `Unwrap` of an error, or recursion
without end. -/
inductive Fault where
  | outOfRange
  | unwrapped (error : Error)
  | stackOverflow
  deriving DecidableEq

def substr (s : Bytes) (offset length : Nat) : Except Fault Bytes :=
  if s.length < offset then .error .outOfRange else .ok ((s.drop offset).take length)

structure Tm where
  sec : Int
  min : Int
  hour : Int
  mday : Int
  mon : Int
  year : Int
  wday : Int
  yday : Int
  isdst : Int
  deriving Inhabited

structure Env where
  toTimeT : Int → Int
  gmtime : Int → Tm
  localtime : Int → Tm
  /-- the expansion of a format, however long -/
  expandTime : Bytes → Tm → Bytes
  formatDouble : Double → Bytes
  threadHash : UInt64
  deriving Inhabited

/-- `strftime` into a buffer of `max` bytes: nothing when the expansion and its terminator
do not fit. -/
def Env.strftime (env : Env) (max : Nat) (format : Bytes) (tm : Tm) : Bytes :=
  let text := env.expandTime (cString format) tm
  if text.length < max then text else []

def toUpper (c : UInt8) : UInt8 := if ch 'a' ≤ c && c ≤ ch 'z' then c - 32 else c

def toLower (c : UInt8) : UInt8 := if ch 'A' ≤ c && c ≤ ch 'Z' then c + 32 else c

def levelToString (level : LogLevel) (spec : Bytes) : Bytes :=
  if spec = str "upper" then level.toString.map toUpper
  else if spec = str "lower" then level.toString.map toLower
  else level.toString

def applyPadding (content : Bytes) (d : Directive) : Bytes :=
  if !d.hasPadding || d.width.toNat ≤ content.length then content
  else
    let total := d.width.toNat - content.length
    match d.alignment with
    | .left => content ++ List.replicate total d.fill
    | .right => List.replicate total d.fill ++ content
    | .center =>
        let left := total / 2
        List.replicate left d.fill ++ content ++ List.replicate (total - left) d.fill
    | .none => []

def Directive.specification (d : Directive) (pattern : Bytes) : Except Fault Bytes :=
  substr pattern d.specOffset.toNat d.specLength.toNat

/-- The specification of a segment's directive, if there is one with a specification. -/
def Segment.spec (segment : Segment) (pattern : Bytes) : Except Fault (Option Bytes) :=
  match segment.directive with
  | some d =>
      if d.hasSpecification then do
        let spec ← d.specification pattern
        .ok (some spec)
      else .ok none
  | none => .ok none

namespace ParsedPattern
variable (p : ParsedPattern) (env : Env) (segment : Segment) (record : LogRecord)

def formatLiteral : Except Fault Bytes :=
  substr p.pattern segment.text.1.toNat segment.text.2.toNat

def formatTimestamp : Except Fault Bytes := do
  let spec ← segment.spec p.pattern
  let spec := spec.getD []
  let spec := if spec.isEmpty then str "%Y-%m-%d %H:%M:%S" else spec
  let tt := env.toTimeT record.timestamp
  if spec = str "iso8601" then
    .ok (env.strftime 32 (str "%Y-%m-%dT%H:%M:%SZ") (env.gmtime tt))
  else .ok (env.strftime 128 spec (env.localtime tt))

/-- The content with the padding of the segment's directive, if it has one. -/
def padded (content : Bytes) : Bytes :=
  match segment.directive with
  | some d => if d.hasPadding then applyPadding content d else content
  | none => content

def formatLevel : Except Fault Bytes := do
  let spec ← segment.spec p.pattern
  .ok (padded segment (levelToString record.level (spec.getD [])))

def formatMessage : Except Fault Bytes := .ok record.message

def formatLogger : Except Fault Bytes := .ok (padded segment record.logger)

def formatFile : Except Fault Bytes := .ok record.location.file

def formatFunctionName : Except Fault Bytes := .ok record.location.function

def formatLine : Except Fault Bytes := .ok (decimal record.location.line)

def formatColumn : Except Fault Bytes := .ok (decimal record.location.column)

def formatThreadId : Except Fault Bytes := do
  let spec ← segment.spec p.pattern
  if spec = some (str "hex") then .ok (str "0x" ++ hexadecimal env.threadHash.toNat)
  else .ok (decimal env.threadHash.toNat)

def formatAttribute : Except Fault Bytes := do
  match ← segment.spec p.pattern with
  | none => .ok []
  | some key =>
      match record.fields.lookup key with
      | none => .ok []
      | some (.bool value) => .ok (if value then str "true" else str "false")
      | some (.int64 value) => .ok (decimalInt value.toInt)
      | some (.uint64 value) => .ok (decimal value.toNat)
      | some (.double value) => .ok (env.formatDouble value)
      | some (.string value) => .ok value
      | some .mono => .ok []

def formatSegment : Except Fault Bytes :=
  match segment.kind with
  | .literal => p.formatLiteral segment
  | .timestamp => p.formatTimestamp env segment record
  | .message => formatMessage record
  | .logger => formatLogger segment record
  | .file => formatFile record
  | .functionName => formatFunctionName record
  | .lineNum => formatLine record
  | .columnNum => formatColumn record
  | .threadId => p.formatThreadId env segment
  | .attribute => p.formatAttribute env segment record
  | _ => .ok []

def formatSegments : Except Fault Bytes :=
  concatM (fun segment => p.formatSegment env segment record) p.segments

end ParsedPattern
end Logrin.Pattern
