import Logrin.Library.Bytes

/-!
The segments of a log pattern and the `{...}` block of a directive. Offsets, lengths and
widths are stored as 16-bit numbers, as in the source; a cast wraps.
-/

namespace Logrin.Pattern
open Logrin.Library

structure Error where
  message : Bytes
  deriving DecidableEq

def error {α : Type} (message : String) : Except Error α := .error ⟨str message⟩

inductive Alignment where
  | none
  | center
  | right
  | left
  deriving DecidableEq

inductive SegmentKind where
  | literal
  | timestamp
  | level
  | message
  | logger
  | file
  | functionName
  | lineNum
  | columnNum
  | threadId
  | allAttributes
  | attribute
  | foregroundColorStart
  | backgroundColorStart
  | levelColorStart
  | bold
  | dim
  | italic
  | underline
  | strikethrough
  | styleEnd
  deriving DecidableEq

def SegmentKind.toString : SegmentKind → Bytes
  | .literal => str "literal"
  | .timestamp => str "timestamp (%t)"
  | .level => str "level (%L)"
  | .message => str "message (%m)"
  | .logger => str "logger name (%n)"
  | .file => str "source file (%f)"
  | .functionName => str "function name (%F)"
  | .lineNum => str "line number (%l)"
  | .columnNum => str "column number (%c)"
  | .threadId => str "thread id (%T)"
  | .allAttributes => str "all attributes (%A)"
  | .attribute => str "attribute (%X)"
  | .foregroundColorStart => str "foreground colour: start (%fg)"
  | .backgroundColorStart => str "background colour: start (%bg)"
  | .levelColorStart => str "level colour: start (%levelColor)"
  | .bold => str "bold (%bold)"
  | .dim => str "dim (%dim)"
  | .italic => str "italic (%italic)"
  | .underline => str "underline (%underline)"
  | .strikethrough => str "strikethrough (%strikethrough)"
  | .styleEnd => str "style end (%style:end)"

inductive SegmentCapability where
  | none
  | specOnly
  | paddingOnly
  | specAndPadding
  deriving DecidableEq

def getSegmentCapability : SegmentKind → SegmentCapability
  | .literal | .message | .file | .functionName | .lineNum | .columnNum | .allAttributes
  | .bold | .dim | .italic | .underline | .strikethrough | .styleEnd => .none
  | .timestamp | .attribute | .foregroundColorStart | .backgroundColorStart
  | .levelColorStart => .specOnly
  | .logger => .paddingOnly
  | .level | .threadId => .specAndPadding

structure Directive where
  specOffset : UInt16 := 0
  specLength : UInt16 := 0
  width : UInt16 := 0
  alignment : Alignment := .none
  fill : UInt8 := ch ' '
  deriving DecidableEq

namespace Directive

def hasSpecification (d : Directive) : Bool := decide (0 < d.specLength)

def hasPadding (d : Directive) : Bool := decide (d.alignment ≠ .none)

end Directive

structure Segment where
  kind : SegmentKind
  /-- offset and length of the literal text -/
  text : UInt16 × UInt16
  directive : Option Directive
  depth : UInt8
  deriving DecidableEq

def isAlignmentCharacter (c : UInt8) : Bool := c = ch '<' || c = ch '>' || c = ch '^'

def isDigit (c : UInt8) : Bool := ch '0' ≤ c && c ≤ ch '9'

theorem isDigit_iff {c : UInt8} : isDigit c = true ↔ ch '0' ≤ c ∧ c ≤ ch '9' := by
  simp [isDigit]

def getAlignmentFromCharacter (c : UInt8) : Alignment :=
  if c = ch '<' then .left
  else if c = ch '>' then .right
  else if c = ch '^' then .center
  else .none

/-- The digit loop of `parsePadding`, over what is left of the input. The sum is taken
in 16 bits. -/
def parseWidth : Bytes → UInt16 → Bool → Except Error (UInt16 × Bool)
  | [], width, hasDigits => .ok (width, hasDigits)
  | c :: rest, width, _ =>
      if !isDigit c then
        .error ⟨str "invalid character [" ++ [c] ++ str "] in width specifier"⟩
      else parseWidth rest (width * 10 + (c - ch '0').toUInt16) true

/-- Fill and alignment at the head of a padding block, and how many bytes they take. -/
def parseAlignment (input : Bytes) (d : Directive) : Directive × Nat :=
  let c0 := input.getD 0 0
  let c1 := input.getD 1 0
  if 2 ≤ input.length && isAlignmentCharacter c1 then
    ({ d with fill := c0, alignment := getAlignmentFromCharacter c1 }, 2)
  else if isAlignmentCharacter c0 then
    ({ d with alignment := getAlignmentFromCharacter c0 }, 1)
  else if c0 = ch '0' && 1 < input.length then
    ({ d with fill := ch '0', alignment := .right }, 1)
  else (d, 0)

def parsePadding (input : Bytes) (d : Directive) : Except Error Directive :=
  if input.isEmpty then .ok d
  else do
    let (d, pos) := parseAlignment input d
    let (width, hasDigits) ← parseWidth (input.drop pos) 0 false
    if !hasDigits && d.alignment ≠ .none then error "padding alignment requires a width"
    else if hasDigits && d.alignment = .none then
      .ok { d with alignment := .right, width := width }
    else .ok { d with width := width }

/-- A block without `:` that starts like padding is read as padding. -/
def looksLikePadding (input : Bytes) : Bool :=
  isAlignmentCharacter (input.getD 0 0) || isDigit (input.getD 0 0) ||
    (2 ≤ input.length && isAlignmentCharacter (input.getD 1 0))

/-- `Directive::Parse`: the content of a block at byte `offset` of the pattern. -/
def Directive.parse (input : Bytes) (offset : Nat) (kind : SegmentKind) :
    Except Error Directive :=
  match getSegmentCapability kind with
  | .none =>
      .error ⟨str "directive with specification [" ++ input ++
        str "] does not accept a specification"⟩
  | capability =>
      if input.isEmpty then .ok { }
      else
        match capability with
        | .specOnly =>
            .ok { specOffset := .ofNat offset, specLength := .ofNat input.length }
        | .paddingOnly =>
            if ch ':' ∈ input then
              error ("directive does not accept a format specification; " ++
                "use padding syntax (e.g., `%n\x7b<20\x7d`)")
            else parsePadding input { }
        | _ =>
            match rfind (ch ':') input with
            | none =>
                if looksLikePadding input then parsePadding input { }
                else .ok { specOffset := .ofNat offset, specLength := .ofNat input.length }
            | some colon =>
                let spec := input.take colon
                let d : Directive :=
                  if spec.isEmpty then { }
                  else { specOffset := .ofNat offset, specLength := .ofNat spec.length }
                parsePadding (input.drop (colon + 1)) d

end Logrin.Pattern
