import Logrin.PatternColor
import Logrin.PatternFormat

/-!
The formatter class `Pattern`: a parsed pattern with its configuration and the parsed
markers of `%A`. The terminal's escape sequences are a parameter.
-/

namespace Logrin.Formatter
open Logrin.Library
open Logrin.Pattern

structure Style where
  bold : Bool := false
  dim : Bool := false
  italic : Bool := false
  underline : Bool := false
  strikethrough : Bool := false
  deriving DecidableEq

/-- `violet::terminal`. -/
structure Terminal where
  coloursEnabled : Bool
  /-- the value of `RGB{ }` -/
  defaultRGB : RGB
  /-- `RGB::Paint`, given `Foreground` -/
  paint : Bool → RGB → Bytes
  paintStyle : Style → Bytes
  deriving Inhabited

def digits (n : UInt8) : Bytes := [48 + n / 100, 48 + n / 10 % 10, 48 + n % 10]

/-- A terminal with the usual escape sequences: `ESC [`, the codes and `m`. -/
def ansi : Terminal where
  coloursEnabled := true
  defaultRGB := ⟨0, 0, 0⟩
  paint foreground rgb :=
    [27, 91] ++ str (if foreground then "38" else "48") ++ str ";2;" ++ digits rgb.red ++
      str ";" ++ digits rgb.green ++ str ";" ++ digits rgb.blue ++ str "m"
  paintStyle style :=
    let codes :=
      (if style.bold then [str "1"] else []) ++ (if style.dim then [str "2"] else []) ++
      (if style.italic then [str "3"] else []) ++ (if style.underline then [str "4"] else []) ++
      (if style.strikethrough then [str "9"] else [])
    [27, 91] ++ (if codes.isEmpty then str "0" else (codes.intersperse (str ";")).flatten) ++
      str "m"

structure Config where
  useColours : Option Bool := none
  levelColorMap : Option LevelColorPalette := none
  markers : Bytes × Bytes := (str "[", str "]")
  delimiter : Bytes := str "="

def markerParseConfig : ParseConfig where
  allowedSegments := [.literal, .foregroundColorStart, .backgroundColorStart, .levelColorStart,
    .bold, .dim, .italic, .underline, .strikethrough, .styleEnd]
  relaxedStyleNesting := true

def isColorsEnabled (term : Terminal) (useColours : Option Bool) : Bool :=
  useColours.getD term.coloursEnabled

def appendAttributeValue (env : Env) : AttributeValue → Bytes
  | .bool value => if value then str "true" else str "false"
  | .int64 value => decimalInt value.toInt
  | .uint64 value => decimal value.toNat
  | .double value => env.formatDouble value
  | .string value => value
  | .mono => []

/-- Why `Pattern::Parse` gives no pattern: an error it returns, or a fault. -/
inductive ParseFailure where
  | returned (error : Error)
  | raised (fault : Fault)
  deriving DecidableEq

def returned {α : Type} : Except Error α → Except ParseFailure α
  | .ok a => .ok a
  | .error e => .error (.returned e)

def raised {α : Type} : Except Fault α → Except ParseFailure α
  | .ok a => .ok a
  | .error f => .error (.raised f)

/-- `Result::Unwrap`. -/
def unwrap {α : Type} : Except Error α → Except Fault α
  | .ok a => .ok a
  | .error e => .error (.unwrapped e)

/-- The kinds whose specification is a colour. -/
def isColour (kind : SegmentKind) : Bool :=
  kind = .foregroundColorStart || kind = .backgroundColorStart || kind = .levelColorStart

/-- One iteration of `validateColorSpecs`. -/
def validateColorSpec (parsed : ParsedPattern) (segment : Segment) : Except ParseFailure Unit :=
  if isColour segment.kind then do
    match ← raised (segment.spec parsed.pattern) with
    | some spec => do
        let _ ← returned (parseColorSpec spec)
        .ok ()
    | none => .ok ()
  else .ok ()

def validateColorSpecs (parsed : ParsedPattern) : Except ParseFailure Unit :=
  parsed.segments.forM (validateColorSpec parsed)

structure Pattern where
  parsed : ParsedPattern
  config : Config
  prefixMarker : Option ParsedPattern
  suffixMarker : Option ParsedPattern

namespace Pattern

/-- A marker of the configuration; the empty one is not parsed. -/
def parseMarker (label : String) (marker : Bytes) : Except ParseFailure (Option ParsedPattern) :=
  if marker.isEmpty then .ok none
  else
    match Logrin.Pattern.parse marker markerParseConfig with
    | .error e => .error (.returned ⟨str label ++ e.message⟩)
    | .ok parsed => do
        validateColorSpecs parsed
        .ok (some parsed)

/-- `Pattern::Parse`. -/
def parse (input : Bytes) (config : Config) : Except ParseFailure Pattern := do
  let parsed ← returned (Logrin.Pattern.parse input { })
  validateColorSpecs parsed
  let prefixMarker ← parseMarker "in marker prefix: " config.markers.1
  let suffixMarker ← parseMarker "in marker suffix: " config.markers.2
  .ok
    { parsed := parsed
      config := config
      prefixMarker := prefixMarker
      suffixMarker := suffixMarker }

/-- `Pattern::Azalia`, before its `Unwrap`. -/
def azalia : Except ParseFailure Pattern :=
  parse
    (str ("%fg\x7b\x23868686\x7d[%t\x7b%B %d, %G - %H:%M:%S %p\x7d]%style:end " ++
      "%levelColor[%L\x7b>5\x7d]%style:end " ++
      "%fg\x7b\x23483D8B\x7d«%n [thread %T\x7bhex\x7d]»%style:end  %m    %A"))
    { useColours := some true
      levelColorMap := some kAzaliaLevelColorMap
      markers := (str "%fg\x7b34,34,34\x7d%bold[", str "]%style:end")
      delimiter := str "=" }

variable (self : Pattern) (env : Env) (term : Terminal)

def formatAttribute (segment : Segment) (pattern : ParsedPattern) (record : LogRecord) :
    Except Fault Bytes := do
  match ← segment.spec pattern.pattern with
  | some key =>
      match record.fields.lookup key with
      | some value => .ok (appendAttributeValue env value)
      | none => .ok []
  | none => .ok []

def emitColour (segment : Segment) (pattern : ParsedPattern) (foreground : Bool) :
    Except Fault Bytes :=
  if isColorsEnabled term self.config.useColours then do
    match ← segment.spec pattern.pattern with
    | some spec => do
        let rgb ← unwrap (parseColorSpec spec)
        .ok (term.paint foreground rgb)
    | none => .ok []
  else .ok []

/-- The colour of `%levelColor`: the one of its specification, or of the level. -/
def levelColour (segment : Segment) (pattern : ParsedPattern) (record : LogRecord) :
    Except Fault RGB := do
  match ← segment.spec pattern.pattern with
  | some spec => unwrap (parseColorSpec spec)
  | none =>
      let palette := self.config.levelColorMap.getD kDefaultLevelColorMap
      .ok (getLevelColor term.defaultRGB record.level palette)

def emitLevelColour (segment : Segment) (pattern : ParsedPattern) (record : LogRecord) :
    Except Fault Bytes :=
  if isColorsEnabled term self.config.useColours then do
    let rgb ← self.levelColour term segment pattern record
    .ok (term.paint true rgb)
  else .ok []

def emitStyle (kind : SegmentKind) : Except Fault Bytes :=
  if isColorsEnabled term self.config.useColours then
    match kind with
    | .bold => .ok (term.paintStyle { bold := true })
    | .dim => .ok (term.paintStyle { dim := true })
    | .italic => .ok (term.paintStyle { italic := true })
    | .underline => .ok (term.paintStyle { underline := true })
    | .strikethrough => .ok (term.paintStyle { strikethrough := true })
    | _ => .ok []
  else .ok []

def emitStyleEnd : Except Fault Bytes :=
  if isColorsEnabled term self.config.useColours then .ok (term.paintStyle { })
  else .ok []

/-- A marker around a field, given how a parsed marker is formatted. -/
def formatMarker (formatPattern : ParsedPattern → Except Fault Bytes)
    (marker : Option ParsedPattern) (text : Bytes) : Except Fault Bytes :=
  match marker with
  | some pattern => formatPattern pattern
  | none => .ok text

/-- The loop over the fields of a record. -/
def formatFields (formatPattern : ParsedPattern → Except Fault Bytes) (first : Bool) :
    List (Sigma fun _ : Bytes => AttributeValue) → Except Fault Bytes
  | [] => .ok []
  | ⟨key, value⟩ :: fields => do
      let before ← formatMarker formatPattern self.prefixMarker self.config.markers.1
      let after ← formatMarker formatPattern self.suffixMarker self.config.markers.2
      let rest ← formatFields formatPattern false fields
      .ok ((if first then [] else str " ") ++ before ++ key ++ self.config.delimiter ++
        appendAttributeValue env value ++ after ++ rest)

def formatAllAttributes (formatPattern : ParsedPattern → Except Fault Bytes)
    (record : LogRecord) : Except Fault Bytes :=
  self.formatFields env formatPattern true record.fields.entries

def formatSegment (formatPattern : ParsedPattern → Except Fault Bytes) (segment : Segment)
    (pattern : ParsedPattern) (record : LogRecord) : Except Fault Bytes :=
  match segment.kind with
  | .literal => pattern.formatLiteral segment
  | .timestamp => pattern.formatTimestamp env segment record
  | .level => pattern.formatLevel segment record
  | .message => ParsedPattern.formatMessage record
  | .logger => ParsedPattern.formatLogger segment record
  | .file => ParsedPattern.formatFile record
  | .functionName => ParsedPattern.formatFunctionName record
  | .lineNum => ParsedPattern.formatLine record
  | .columnNum => ParsedPattern.formatColumn record
  | .threadId => pattern.formatThreadId env segment
  | .attribute => formatAttribute env segment pattern record
  | .allAttributes => self.formatAllAttributes env formatPattern record
  | .foregroundColorStart => self.emitColour term segment pattern true
  | .backgroundColorStart => self.emitColour term segment pattern false
  | .levelColorStart => self.emitLevelColour term segment pattern record
  | .bold | .dim | .italic | .underline | .strikethrough => self.emitStyle term segment.kind
  | .styleEnd => self.emitStyleEnd term

/-- `formatPattern`, with a bound on how deep `%A` may call it again for a marker. -/
def formatPattern (record : LogRecord) : Nat → ParsedPattern → Except Fault Bytes
  | 0, _ => .error .stackOverflow
  | depth + 1, pattern =>
      concatM
        (fun segment => self.formatSegment env term (formatPattern record depth) segment pattern
          record)
        pattern.segments

/-- `Pattern::Format`: the pattern, and its markers one level deeper. -/
def format (record : LogRecord) : Except Fault Bytes :=
  self.formatPattern env term record 2 self.parsed

end Pattern
end Logrin.Formatter
