import Logrin.Library.Loop
import Logrin.PatternSegment
import Mathlib.Algebra.Group.Nat.Defs

/-!
`pattern::Parse`. Positions are `UInt32` in the source: `len` is the size of the input
cast to 32 bits, and skipping a keyword is the one addition that can wrap, because
keywords are looked for in the whole rest of the input and not only below `len`.
-/

namespace Logrin.Pattern
open Logrin.Library

/-- A cast or an addition in `UInt32`. -/
def u32 (n : Nat) : Nat := n % 2 ^ 32

structure ParseConfig where
  /-- the kinds to accept; the empty set accepts all -/
  allowedSegments : List SegmentKind := []
  relaxedStyleNesting : Bool := false

/-- The segments in use (the array's first `Count`) and the text they point into. -/
structure ParsedPattern where
  segments : List Segment
  pattern : Bytes
  deriving DecidableEq

def kKeywords : List (Bytes × SegmentKind) :=
  [(str "strikethrough", .strikethrough), (str "levelColor", .levelColorStart),
    (str "style:end", .styleEnd), (str "underline", .underline), (str "italic", .italic),
    (str "bold", .bold), (str "dim", .dim), (str "fg", .foregroundColorStart),
    (str "bg", .backgroundColorStart)]

def isWordBoundary (rest : Bytes) (stop : Nat) : Bool :=
  if rest.length ≤ stop then true
  else
    rest.getD stop 0 ∈ [ch '{', ch '%', ch ' ', ch '\t', ch '\n', ch '[', ch ']', ch '(',
      ch ')', ch '}', ch ':']

/-- The length and kind of the first keyword `rest` starts with, or length 0. -/
def tryMatchKeyword (rest : Bytes) : Nat × SegmentKind :=
  match kKeywords.find? fun kw => kw.1.isPrefixOf rest && isWordBoundary rest kw.1.length with
  | some kw => (kw.1.length, kw.2)
  | none => (0, .literal)

/-- The one-letter directives. -/
def letterKind (spec : UInt8) : Option SegmentKind :=
  if spec = ch 'L' then some .level
  else if spec = ch 'm' then some .message
  else if spec = ch 'T' then some .threadId
  else if spec = ch 't' then some .timestamp
  else if spec = ch 'n' then some .logger
  else if spec = ch 'f' then some .file
  else if spec = ch 'l' then some .lineNum
  else if spec = ch 'c' then some .columnNum
  else if spec = ch 'F' then some .functionName
  else if spec = ch 'A' then some .allAttributes
  else if spec = ch 'X' then some .attribute
  else none

def isStyleStart : SegmentKind → Bool
  | .foregroundColorStart | .backgroundColorStart | .levelColorStart | .bold | .dim
  | .italic | .underline | .strikethrough => true
  | _ => false

/-- The local variables of the loop and the segments emitted so far. -/
structure Scan where
  pos : Nat
  literalStart : Nat
  inLiteral : Bool
  depth : UInt8
  segments : List Segment

def Scan.push (st : Scan) (segment : Segment) : Except Error Scan :=
  if 64 ≤ st.segments.length then error "pattern exceeds maximum segment count (64)"
  else .ok { st with segments := st.segments ++ [segment] }

def literalSegment (start stop : Nat) (depth : UInt8) : Segment where
  kind := .literal
  text := (.ofNat start, .ofNat (stop - start))
  directive := none
  depth := depth

def flushLiteral (st : Scan) (stop : Nat) : Except Error Scan := do
  let st ← if st.inLiteral && st.literalStart < stop then
      st.push (literalSegment st.literalStart stop st.depth)
    else .ok st
  .ok { st with inLiteral := false }

/-- The loop over a `{...}` block, over what is left of the first `len` bytes: the
position after the last byte it looked at and the brace depth there. -/
def scanBraces : Bytes → Nat → Nat → Nat × Nat
  | [], ending, braceDepth => (ending, braceDepth)
  | c :: rest, ending, braceDepth =>
      if braceDepth = 0 then (ending, 0)
      else if c = ch '{' then scanBraces rest (ending + 1) (braceDepth + 1)
      else if c = ch '}' then scanBraces rest (ending + 1) (braceDepth - 1)
      else scanBraces rest (ending + 1) braceDepth

/-- The optional block after a directive's name, and the position after it. -/
def parseBlock (input : Bytes) (len pos : Nat) (kind : SegmentKind) :
    Except Error (Option Directive × Nat) :=
  if pos < len && input.getD pos 0 = ch '{' then
    let start := pos + 1
    let (ending, braceDepth) := scanBraces (slice input start len) start 1
    if braceDepth ≠ 0 then error "unterminated `\x7b' in format directive"
    else do
      let d ← Directive.parse (slice input start (ending - 1)) start kind
      .ok (some d, ending)
  else .ok (none, pos)

/-- The directives that cannot do without a specification. -/
def requireSpec (kind : SegmentKind) (directive : Option Directive) : Except Error Unit :=
  if getSegmentCapability kind = .specOnly || kind = .attribute then
    if (directive.map Directive.hasSpecification).getD false then .ok ()
    else if kind = .attribute then
      error "%X format directive requires a key spec (e.g., `%X\x7brequest.id\x7d`)"
    else if kind = .foregroundColorStart || kind = .backgroundColorStart then
      error "%fg/%bg requires a spec (e.g., `%fg\x7bred\x7d`)"
    else .ok ()
  else .ok ()

def nestStyle (config : ParseConfig) (kind : SegmentKind) (depth : UInt8) :
    Except Error UInt8 :=
  if isStyleStart kind then .ok (depth + 1)
  else if kind = .styleEnd then
    if depth = 0 then
      if config.relaxedStyleNesting then .ok depth
      else error "`%style:end` with no matching style directive"
    else .ok (depth - 1)
  else .ok depth

/-- A directive of the given kind, with the position after its name. -/
def parseDirective (input : Bytes) (config : ParseConfig) (len : Nat) (kind : SegmentKind)
    (st : Scan) : Except Error Scan :=
  if !config.allowedSegments.isEmpty && kind ∉ config.allowedSegments then
    .error ⟨str "segment [" ++ kind.toString ++ str "] is not allowed"⟩
  else do
    let (directive, pos) ← parseBlock input len st.pos kind
    requireSpec kind directive
    let depth ← nestStyle config kind st.depth
    Scan.push { st with pos := pos, depth := depth, literalStart := pos }
      { kind := kind, text := (0, 0), directive := directive, depth := depth }

/-- `%%`, with the position after it: a literal of its second byte. -/
def parseEscape (st : Scan) : Except Error Scan :=
  Scan.push { st with literalStart := st.pos }
    { kind := .literal, text := (.ofNat (st.pos - 1), 1), directive := none, depth := st.depth }

/-- The iteration for the `%` at `pos`, after the literal before it has been flushed. -/
def parsePercent (input : Bytes) (config : ParseConfig) (len : Nat) (st : Scan) :
    Except Error Scan :=
  let (kwLen, kwKind) := tryMatchKeyword (input.drop (st.pos + 1))
  if 0 < kwLen then
    parseDirective input config len kwKind { st with pos := u32 (st.pos + 1 + kwLen) }
  else
    let spec := input.getD (st.pos + 1) 0
    if spec = ch '%' then parseEscape { st with pos := st.pos + 2 }
    else
      match letterKind spec with
      | some kind => parseDirective input config len kind { st with pos := st.pos + 2 }
      | none => .error ⟨str "unknown format directive: [%" ++ [spec] ++ str "]"⟩

/-- One iteration of the loop. -/
def parseStep (input : Bytes) (config : ParseConfig) (len : Nat) (st : Scan) :
    Except Error Scan :=
  if input.getD st.pos 0 ≠ ch '%' || len ≤ st.pos + 1 then
    .ok { st with
      pos := st.pos + 1
      literalStart := if st.inLiteral then st.literalStart else st.pos
      inLiteral := true }
  else do
    let st ← flushLiteral st st.pos
    parsePercent input config len st

/-- Enough for any input: an iteration advances by a byte or emits one of 64 segments. -/
def parseFuel (len : Nat) : Nat := 65 * (len + 1)

def Scan.start : Scan where
  pos := 0
  literalStart := 0
  inLiteral := false
  depth := 0
  segments := []

/-- The check after the loop. -/
def checkNesting (config : ParseConfig) (depth : UInt8) : Except Error Unit :=
  if depth ≠ 0 && !config.relaxedStyleNesting then
    .error ⟨str "pattern has " ++ decimal depth.toNat ++
      str " unclosed style directive(s); missing `%style:end`"⟩
  else .ok ()

def parse (input : Bytes) (config : ParseConfig) : Except Error ParsedPattern := do
  let len := u32 input.length
  let st ← whileLoop (fun st => st.pos < len) (parseStep input config len) (parseFuel len)
    Scan.start
  let st ← flushLiteral st len
  checkNesting config st.depth
  .ok { segments := st.segments, pattern := input }

end Logrin.Pattern
