import Logrin.Library.Overlay
import Logrin.PatternRender

/-!
The output of the formatter as a list of pieces: text, and the styling in between. What
`Format` returns is the concatenation of the pieces, and their kinds and order depend only
on the segments and on the number of fields.
-/

namespace Logrin.Formatter
open Logrin.Library
open Logrin.Library.Overlay (Op)
open Logrin.Pattern

/-- What a style directive sets. -/
inductive Channel where
  | foreground
  | background
  | bold
  | dim
  | italic
  | underline
  | strikethrough
  deriving DecidableEq

inductive Setting where
  | foreground (rgb : RGB)
  | background (rgb : RGB)
  | bold
  | dim
  | italic
  | underline
  | strikethrough
  deriving DecidableEq

def Setting.channel : Setting → Channel
  | .foreground _ => .foreground
  | .background _ => .background
  | .bold => .bold
  | .dim => .dim
  | .italic => .italic
  | .underline => .underline
  | .strikethrough => .strikethrough

/-- The escape sequence the formatter emits for an operation. -/
def Terminal.escape (term : Terminal) : Op Setting → Bytes
  | .set (.foreground rgb) => term.paint true rgb
  | .set (.background rgb) => term.paint false rgb
  | .set .bold => term.paintStyle { bold := true }
  | .set .dim => term.paintStyle { dim := true }
  | .set .italic => term.paintStyle { italic := true }
  | .set .underline => term.paintStyle { underline := true }
  | .set .strikethrough => term.paintStyle { strikethrough := true }
  | .close => term.paintStyle { }

inductive Piece where
  | text (bytes : Bytes)
  | style (op : Op Setting)
  deriving DecidableEq

namespace Piece

def render (term : Terminal) : Piece → Bytes
  | .text bytes => bytes
  | .style op => term.escape op

def op : Piece → Option (Op Setting)
  | .text _ => none
  | .style op => some op

end Piece

def isStyle (kind : SegmentKind) : Bool := isStyleStart kind || kind = .styleEnd

namespace Pattern
variable (self : Pattern) (env : Env) (term : Terminal)

/-- The colour of `%fg` or `%bg`; nothing without a specification. -/
def colourOp (setting : RGB → Setting) (segment : Segment) (pattern : ParsedPattern) :
    Except Fault (List Piece) := do
  match ← segment.spec pattern.pattern with
  | some spec => do
      let rgb ← unwrap (parseColorSpec spec)
      .ok [.style (.set (setting rgb))]
  | none => .ok []

def stylePieces (segment : Segment) (pattern : ParsedPattern) (record : LogRecord) :
    Except Fault (List Piece) :=
  match segment.kind with
  | .foregroundColorStart => colourOp .foreground segment pattern
  | .backgroundColorStart => colourOp .background segment pattern
  | .levelColorStart => do
      let rgb ← self.levelColour term segment pattern record
      .ok [.style (.set (.foreground rgb))]
  | .bold => .ok [.style (.set .bold)]
  | .dim => .ok [.style (.set .dim)]
  | .italic => .ok [.style (.set .italic)]
  | .underline => .ok [.style (.set .underline)]
  | .strikethrough => .ok [.style (.set .strikethrough)]
  | .styleEnd => .ok [.style .close]
  | _ => .ok []

def markerPieces (patternPieces : ParsedPattern → Except Fault (List Piece))
    (marker : Option ParsedPattern) (text : Bytes) : Except Fault (List Piece) :=
  match marker with
  | some pattern => patternPieces pattern
  | none => .ok [.text text]

def fieldsPieces (patternPieces : ParsedPattern → Except Fault (List Piece)) (first : Bool) :
    List (Sigma fun _ : Bytes => AttributeValue) → Except Fault (List Piece)
  | [] => .ok []
  | ⟨key, value⟩ :: fields => do
      let before ← markerPieces patternPieces self.prefixMarker self.config.markers.1
      let after ← markerPieces patternPieces self.suffixMarker self.config.markers.2
      let rest ← fieldsPieces patternPieces false fields
      .ok ((if first then [] else [.text (str " ")]) ++ before ++
        [.text (key ++ self.config.delimiter ++ appendAttributeValue env value)] ++ after ++ rest)

def segmentPieces (patternPieces : ParsedPattern → Except Fault (List Piece))
    (segment : Segment) (pattern : ParsedPattern) (record : LogRecord) :
    Except Fault (List Piece) :=
  if segment.kind = .allAttributes then
    self.fieldsPieces env patternPieces true record.fields.entries
  else if isStyle segment.kind then
    if isColorsEnabled term self.config.useColours then
      self.stylePieces term segment pattern record
    else .ok []
  else do
    let text ← self.formatSegment env term (fun _ => .ok []) segment pattern record
    .ok [.text text]

def patternPieces (record : LogRecord) : Nat → ParsedPattern → Except Fault (List Piece)
  | 0, _ => .error .stackOverflow
  | depth + 1, pattern =>
      concatM
        (fun segment => self.segmentPieces env term (patternPieces record depth) segment pattern
          record)
        pattern.segments

def pieces (record : LogRecord) : Except Fault (List Piece) :=
  self.patternPieces env term record 2 self.parsed

variable {self env term} {record : LogRecord} {pattern : ParsedPattern} {segment : Segment}
  {formatPattern : ParsedPattern → Except Fault Bytes}
  {patternPieces : ParsedPattern → Except Fault (List Piece)}

theorem emitColour_render {foreground : Bool} {setting : RGB → Setting}
    (escape : ∀ rgb, term.escape (.set (setting rgb)) = term.paint foreground rgb)
    (on : isColorsEnabled term self.config.useColours = true) :
    self.emitColour term segment pattern foreground =
      (colourOp setting segment pattern).map (List.flatMap (Piece.render term)) := by
  simp only [emitColour, if_pos on, colourOp]
  cases segment.spec pattern.pattern with
  | error fault => rfl
  | ok spec =>
      cases spec with
      | none => rfl
      | some spec =>
          simp only [ok_bind]
          cases unwrap (parseColorSpec spec) with
          | error fault => rfl
          | ok rgb => simp [Except.map, Piece.render, escape]

theorem stylePieces_render (style : isStyle segment.kind = true)
    (on : isColorsEnabled term self.config.useColours = true) :
    self.formatSegment env term formatPattern segment pattern record =
      (self.stylePieces term segment pattern record).map (List.flatMap (Piece.render term)) := by
  cases hkind : segment.kind with
  | foregroundColorStart =>
      simp only [formatSegment, stylePieces, hkind]
      exact emitColour_render (fun _ => rfl) on
  | backgroundColorStart =>
      simp only [formatSegment, stylePieces, hkind]
      exact emitColour_render (fun _ => rfl) on
  | levelColorStart =>
      simp only [formatSegment, stylePieces, hkind, emitLevelColour, if_pos on]
      cases self.levelColour term segment pattern record with
      | error fault => rfl
      | ok rgb => simp [Except.map, Piece.render, Terminal.escape]
  | bold | dim | italic | underline | strikethrough =>
      simp [formatSegment, stylePieces, hkind, emitStyle, if_pos on, Except.map, Piece.render,
        Terminal.escape]
  | styleEnd =>
      simp [formatSegment, stylePieces, hkind, emitStyleEnd, if_pos on, Except.map, Piece.render,
        Terminal.escape]
  | _ => simp [isStyle, isStyleStart, hkind] at style

theorem formatSegment_dark (style : isStyle segment.kind = true)
    (off : ¬ isColorsEnabled term self.config.useColours = true) :
    self.formatSegment env term formatPattern segment pattern record = .ok [] := by
  cases hkind : segment.kind with
  | foregroundColorStart | backgroundColorStart =>
      simp only [formatSegment, hkind, emitColour, if_neg off]
  | levelColorStart => simp only [formatSegment, hkind, emitLevelColour, if_neg off]
  | bold | dim | italic | underline | strikethrough =>
      simp only [formatSegment, hkind, emitStyle, if_neg off]
  | styleEnd => simp only [formatSegment, hkind, emitStyleEnd, if_neg off]
  | _ => simp [isStyle, isStyleStart, hkind] at style

theorem markerPieces_render
    (same : ∀ marker, formatPattern marker =
      (patternPieces marker).map (List.flatMap (Piece.render term)))
    (marker : Option ParsedPattern) (text : Bytes) :
    formatMarker formatPattern marker text =
      (markerPieces patternPieces marker text).map (List.flatMap (Piece.render term)) := by
  cases marker with
  | none => simp [formatMarker, markerPieces, Except.map, Piece.render]
  | some pattern => exact same pattern

theorem fieldsPieces_render
    (same : ∀ marker, formatPattern marker =
      (patternPieces marker).map (List.flatMap (Piece.render term)))
    (first : Bool) (fields : List (Sigma fun _ : Bytes => AttributeValue)) :
    self.formatFields env formatPattern first fields =
      (self.fieldsPieces env patternPieces first fields).map
        (List.flatMap (Piece.render term)) := by
  induction fields generalizing first with
  | nil => rfl
  | cons field fields ih =>
      simp only [formatFields, fieldsPieces, markerPieces_render same, ih]
      cases markerPieces patternPieces self.prefixMarker self.config.markers.1 with
      | error fault => rfl
      | ok before =>
          cases markerPieces patternPieces self.suffixMarker self.config.markers.2 with
          | error fault => rfl
          | ok after =>
              cases self.fieldsPieces env patternPieces false fields with
              | error fault => rfl
              | ok rest => cases first <;> simp [Except.map, Piece.render]

theorem segmentPieces_render
    (same : ∀ marker, formatPattern marker =
      (patternPieces marker).map (List.flatMap (Piece.render term))) :
    self.formatSegment env term formatPattern segment pattern record =
      (self.segmentPieces env term patternPieces segment pattern record).map
        (List.flatMap (Piece.render term)) := by
  simp only [segmentPieces]
  split
  · next attributes =>
      simp only [formatSegment, attributes, formatAllAttributes]
      exact fieldsPieces_render same true _
  · next other =>
      split
      · next style =>
          split
          · next on => exact stylePieces_render style on
          · next off => rw [formatSegment_dark style off]; rfl
      · next plain =>
          have unused : self.formatSegment env term formatPattern segment pattern record =
              self.formatSegment env term (fun _ => .ok []) segment pattern record := by
            cases hkind : segment.kind <;> simp only [formatSegment, hkind]
            exact absurd hkind other
          rw [unused]
          cases self.formatSegment env term (fun _ => .ok []) segment pattern record with
          | error fault => rfl
          | ok text => simp [Except.map, Piece.render]

theorem patternPieces_render (depth : Nat) (pattern : ParsedPattern) :
    self.formatPattern env term record depth pattern =
      (self.patternPieces env term record depth pattern).map
        (List.flatMap (Piece.render term)) := by
  induction depth generalizing pattern with
  | zero => rfl
  | succ depth ih => exact concatM_map _ fun segment _ => segmentPieces_render ih

/-- The output is the concatenation of the pieces. -/
theorem format_eq_pieces (self : Pattern) (env : Env) (term : Terminal) (record : LogRecord) :
    self.format env term record =
      (self.pieces env term record).map (List.flatMap (Piece.render term)) :=
  patternPieces_render 2 self.parsed

end Pattern
end Logrin.Formatter
