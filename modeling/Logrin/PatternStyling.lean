import Logrin.PatternNesting
import Logrin.PatternPieces

/-!
The styling a terminal is left in. `%style:end` emits the reset of all attributes, while
the style directives are documented as a stack: the two differ at a piece of text exactly
when a style that the last `%style:end` left open has not been set again.
-/

namespace Logrin.Formatter
open Logrin.Library
open Logrin.Library.Overlay (Op)
open Logrin.Pattern

/-- What a kind does to the styling; nothing for text. -/
def kindOp : SegmentKind → Option (Op Channel)
  | .foregroundColorStart | .levelColorStart => some (.set .foreground)
  | .backgroundColorStart => some (.set .background)
  | .bold => some (.set .bold)
  | .dim => some (.set .dim)
  | .italic => some (.set .italic)
  | .underline => some (.set .underline)
  | .strikethrough => some (.set .strikethrough)
  | .styleEnd => some .close
  | _ => none

def Piece.mark (piece : Piece) : Option (Op Channel) := piece.op.map (Op.map Setting.channel)

/-- Which channels are in effect, and with what setting. -/
abbrev Styling := Channel → Option Setting

def plainStyling : Styling := fun _ => none

/-- What the escape sequences do, as `violet::terminal` documents them. -/
structure Terminal.Interprets (term : Terminal) (effect : Bytes → Styling → Styling) : Prop where
  foreground : ∀ rgb s, effect (term.paint true rgb) s =
    Function.update s .foreground (some (.foreground rgb))
  background : ∀ rgb s, effect (term.paint false rgb) s =
    Function.update s .background (some (.background rgb))
  bold : ∀ s, effect (term.paintStyle { bold := true }) s =
    Function.update s .bold (some .bold)
  dim : ∀ s, effect (term.paintStyle { dim := true }) s = Function.update s .dim (some .dim)
  italic : ∀ s, effect (term.paintStyle { italic := true }) s =
    Function.update s .italic (some .italic)
  underline : ∀ s, effect (term.paintStyle { underline := true }) s =
    Function.update s .underline (some .underline)
  strikethrough : ∀ s, effect (term.paintStyle { strikethrough := true }) s =
    Function.update s .strikethrough (some .strikethrough)
  reset : ∀ s, effect (term.paintStyle { }) s = plainStyling

variable {term : Terminal} {effect : Bytes → Styling → Styling}

theorem Terminal.Interprets.escape (h : term.Interprets effect) (op : Op Setting) (s : Styling) :
    effect (term.escape op) s = Overlay.emit Setting.channel s op := by
  cases op with
  | close => exact h.reset s
  | set setting =>
      cases setting with
      | foreground rgb => exact h.foreground rgb s
      | background rgb => exact h.background rgb s
      | bold => exact h.bold s
      | dim => exact h.dim s
      | italic => exact h.italic s
      | underline => exact h.underline s
      | strikethrough => exact h.strikethrough s

def number (hundreds tens ones : UInt8) : UInt8 :=
  (hundreds - 48) * 100 + (tens - 48) * 10 + (ones - 48)

theorem number_digits (n : UInt8) :
    number (48 + n / 100) (48 + n / 10 % 10) (48 + n % 10) = n := by
  have all : ∀ k : Fin 256, number (48 + UInt8.ofFin k / 100) (48 + UInt8.ofFin k / 10 % 10)
      (48 + UInt8.ofFin k % 10) = UInt8.ofFin k := by
    decide +kernel
  exact all n.toFin

/-- The colour read from the digits of its components. -/
theorem rgb_digits (rgb : RGB) :
    RGB.mk (number (48 + rgb.red / 100) (48 + rgb.red / 10 % 10) (48 + rgb.red % 10))
      (number (48 + rgb.green / 100) (48 + rgb.green / 10 % 10) (48 + rgb.green % 10))
      (number (48 + rgb.blue / 100) (48 + rgb.blue / 10 % 10) (48 + rgb.blue % 10)) = rgb := by
  rw [number_digits, number_digits, number_digits]

def ansiEffect (bytes : Bytes) (s : Styling) : Styling :=
  match bytes with
  | [27, 91, 48, 109] => plainStyling
  | [27, 91, 49, 109] => Function.update s .bold (some .bold)
  | [27, 91, 50, 109] => Function.update s .dim (some .dim)
  | [27, 91, 51, 109] => Function.update s .italic (some .italic)
  | [27, 91, 52, 109] => Function.update s .underline (some .underline)
  | [27, 91, 57, 109] => Function.update s .strikethrough (some .strikethrough)
  | [27, 91, 51, 56, 59, 50, 59, r₂, r₁, r₀, 59, g₂, g₁, g₀, 59, b₂, b₁, b₀, 109] =>
      Function.update s .foreground
        (some (.foreground ⟨number r₂ r₁ r₀, number g₂ g₁ g₀, number b₂ b₁ b₀⟩))
  | [27, 91, 52, 56, 59, 50, 59, r₂, r₁, r₀, 59, g₂, g₁, g₀, 59, b₂, b₁, b₀, 109] =>
      Function.update s .background
        (some (.background ⟨number r₂ r₁ r₀, number g₂ g₁ g₀, number b₂ b₁ b₀⟩))
  | _ => s

theorem ansi_interprets : ansi.Interprets ansiEffect where
  foreground := by
    intro rgb s
    exact congrArg (fun c => Function.update s .foreground (some (.foreground c)))
      (rgb_digits rgb)
  background := by
    intro rgb s
    exact congrArg (fun c => Function.update s .background (some (.background c)))
      (rgb_digits rgb)
  bold := fun _ => rfl
  dim := fun _ => rfl
  italic := fun _ => rfl
  underline := fun _ => rfl
  strikethrough := fun _ => rfl
  reset := fun _ => rfl

/-- The styling after the escape sequences among some pieces. -/
def styling (term : Terminal) (effect : Bytes → Styling → Styling) (ps : List Piece) : Styling :=
  (ps.filterMap Piece.op).foldl (fun s op => effect (term.escape op) s) plainStyling

/-- The styling of the directives that are still open, each `%style:end` having ended the
innermost one. -/
def nestedStyling (ps : List Piece) : Styling :=
  Overlay.shown Setting.channel (Overlay.stack (ps.filterMap Piece.op))

theorem styling_eq (h : term.Interprets effect) (ps : List Piece) :
    styling term effect ps = Overlay.flat Setting.channel (ps.filterMap Piece.op) := by
  simp only [styling, Overlay.flat, h.escape]
  rfl

theorem reduceOption_mark (ps : List Piece) :
    (ps.map Piece.mark).reduceOption =
      (ps.filterMap Piece.op).map (Op.map Setting.channel) := by
  induction ps with
  | nil => rfl
  | cons p ps ih =>
      cases p with
      | text bytes => exact (List.reduceOption_cons_of_none _).trans ih
      | style op => exact (List.reduceOption_cons_of_some _ _).trans (congrArg _ ih)

theorem styling_eq_nested_iff (h : term.Interprets effect) (ps : List Piece) :
    styling term effect ps = nestedStyling ps ↔
      Overlay.Covered (ps.map Piece.mark).reduceOption := by
  rw [styling_eq h, reduceOption_mark]
  exact Overlay.flat_eq_shown_iff Setting.channel _

namespace Pattern

def markerOutline : Option ParsedPattern → List (Option (Op Channel))
  | some marker => marker.segments.map fun segment => kindOp segment.kind
  | none => [none]

/-- The outline of `%A` for a number of fields. -/
def fieldsOutline (self : Pattern) (first : Bool) : Nat → List (Option (Op Channel))
  | 0 => []
  | fields + 1 =>
      (if first then [] else [none]) ++ markerOutline self.prefixMarker ++ [none] ++
        markerOutline self.suffixMarker ++ self.fieldsOutline false fields

/-- What the output consists of, in order: text (`none`) and operations on the styling. It
is read off the kinds of the segments. -/
def outline (self : Pattern) (fields : Nat) : List (Option (Op Channel)) :=
  self.parsed.segments.flatMap fun segment =>
    if segment.kind = .allAttributes then self.fieldsOutline true fields
    else [kindOp segment.kind]

variable {self : Pattern} {env : Env} {record : LogRecord} {pattern : ParsedPattern}
  {segment : Segment} {patternPieces : ParsedPattern → Except Fault (List Piece)}
  {ps : List Piece}

/-- A colour directive that was accepted has a specification. -/
theorem spec_of_requireSpec {kind : SegmentKind}
    (checked : requireSpec kind segment.directive = .ok ())
    (colour : kind = .foregroundColorStart ∨ kind = .backgroundColorStart) :
    segment.spec pattern.pattern ≠ .ok none := by
  intro absent
  have given : (segment.directive.map Directive.hasSpecification).getD false = true := by
    apply Decidable.byContradiction
    intro missing
    obtain rfl | rfl := colour
    · simp [requireSpec, getSegmentCapability, missing, error] at checked
    · simp [requireSpec, getSegmentCapability, missing, error] at checked
  simp only [Segment.spec] at absent
  cases hd : segment.directive with
  | none => simp [hd] at given
  | some d =>
      simp only [hd, Option.map_some, Option.getD_some] at given
      simp only [hd, given, if_true] at absent
      obtain ⟨_, _, h⟩ := bind_eq_ok.mp absent
      cases h

theorem colourOp_mark {setting : RGB → Setting} {channel : Channel}
    (channel_eq : ∀ rgb, (setting rgb).channel = channel)
    (given : segment.spec pattern.pattern ≠ .ok none)
    (h : colourOp setting segment pattern = .ok ps) :
    ps.map Piece.mark = [some (.set channel)] := by
  simp only [colourOp] at h
  obtain ⟨spec, hspec, h⟩ := bind_eq_ok.mp h
  cases spec with
  | none => exact absurd hspec given
  | some spec =>
      obtain ⟨rgb, _, h⟩ := bind_eq_ok.mp h
      cases h
      simp [Piece.mark, Piece.op, Op.map, channel_eq]

theorem stylePieces_mark (checked : requireSpec segment.kind segment.directive = .ok ())
    (style : isStyle segment.kind = true)
    (h : self.stylePieces term segment pattern record = .ok ps) :
    ps.map Piece.mark = [kindOp segment.kind] := by
  simp only [stylePieces] at h
  cases hkind : segment.kind with
  | foregroundColorStart =>
      rw [hkind] at h checked
      exact colourOp_mark (fun _ => rfl) (spec_of_requireSpec checked (Or.inl rfl)) h
  | backgroundColorStart =>
      rw [hkind] at h checked
      exact colourOp_mark (fun _ => rfl) (spec_of_requireSpec checked (Or.inr rfl)) h
  | levelColorStart =>
      rw [hkind] at h
      obtain ⟨rgb, _, h⟩ := bind_eq_ok.mp h
      cases h
      rfl
  | bold | dim | italic | underline | strikethrough | styleEnd =>
      rw [hkind] at h
      cases h
      rfl
  | _ => simp [isStyle, isStyleStart, hkind] at style

theorem kindOp_eq_none {kind : SegmentKind} : kindOp kind = none ↔ isStyle kind = false := by
  cases kind <;> decide

theorem segmentPieces_mark {limits : ParseConfig} (checked : segment.Checked limits)
    (on : isColorsEnabled term self.config.useColours = true)
    (other : segment.kind ≠ .allAttributes)
    (h : self.segmentPieces env term patternPieces segment pattern record = .ok ps) :
    ps.map Piece.mark = [kindOp segment.kind] := by
  simp only [segmentPieces, if_neg other, if_pos on] at h
  split at h
  · next style => exact stylePieces_mark checked.2 style h
  · next plain =>
      obtain ⟨text, _, h⟩ := bind_eq_ok.mp h
      cases h
      rw [kindOp_eq_none.mpr (by simpa using plain)]
      rfl

theorem markerPieces_mark (on : isColorsEnabled term self.config.useColours = true)
    {marker : Option ParsedPattern} {text : Bytes} {depth : Nat}
    (ok : ∀ m, marker = some m → MarkerOk m)
    (h : markerPieces (self.patternPieces env term record depth) marker text = .ok ps) :
    ps.map Piece.mark = markerOutline marker := by
  cases marker with
  | none =>
      cases h
      rfl
  | some m =>
      cases depth with
      | zero => cases h
      | succ depth =>
          refine (concatM_summary Piece.mark h ?_).trans List.map_eq_flatMap.symm
          intro segment member x hx
          have kind := (ok m rfl).kind member
          refine segmentPieces_mark ((ok m rfl).checked segment member) on ?_ hx
          intro attributes
          rw [attributes] at kind
          exact absurd kind (by decide)

theorem fieldsPieces_mark (h : self.WellFormed)
    (on : isColorsEnabled term self.config.useColours = true) {depth : Nat} {first : Bool}
    {fields : List (Sigma fun _ : Bytes => AttributeValue)}
    (hps : self.fieldsPieces env (self.patternPieces env term record depth) first fields =
      .ok ps) :
    ps.map Piece.mark = self.fieldsOutline first fields.length := by
  induction fields generalizing first ps with
  | nil =>
      cases hps
      rfl
  | cons field fields ih =>
      obtain ⟨before, hbefore, hps⟩ := bind_eq_ok.mp hps
      obtain ⟨after, hafter, hps⟩ := bind_eq_ok.mp hps
      obtain ⟨rest, hrest, hps⟩ := bind_eq_ok.mp hps
      cases hps
      have left := markerPieces_mark on h.prefixOk hbefore
      have right := markerPieces_mark on h.suffixOk hafter
      cases first <;>
        simp [fieldsOutline, left, right, ih hrest, Piece.mark, Piece.op]

/-- The pieces follow the outline. -/
theorem pieces_mark (h : self.WellFormed)
    (on : isColorsEnabled term self.config.useColours = true)
    (hps : self.pieces env term record = .ok ps) :
    ps.map Piece.mark = self.outline record.fields.entries.length := by
  apply concatM_summary Piece.mark hps
  intro segment member x hx
  split
  · next attributes =>
      simp only [segmentPieces, if_pos attributes] at hx
      exact fieldsPieces_mark h on hx
  · next other => exact segmentPieces_mark (h.checked segment member) on other hx

theorem pieces_of_parse {input : Bytes} {config : Config} (h : parse input config = .ok self)
    (env : Env) (term : Terminal) (record : LogRecord) :
    ∃ ps, self.pieces env term record = .ok ps ∧
      self.format env term record = .ok (ps.flatMap (Piece.render term)) := by
  obtain ⟨out, hout⟩ := format_ok h env term record
  rw [format_eq_pieces] at hout
  cases hps : self.pieces env term record with
  | error fault =>
      rw [hps] at hout
      cases hout
  | ok ps =>
      refine ⟨ps, rfl, ?_⟩
      rw [format_eq_pieces, hps]
      rfl

theorem mark_eq_none {piece : Piece} (h : piece.mark = none) : ∃ bytes, piece = .text bytes := by
  cases piece with
  | text bytes => exact ⟨bytes, rfl⟩
  | style op => cases h

/-- At every piece of text the terminal shows the styles that are open, innermost first,
exactly when at every piece of text what the last `%style:end` left open has been set
again. -/
theorem styling_nested_iff {input : Bytes} {config : Config}
    (h : parse input config = .ok self)
    (on : isColorsEnabled term config.useColours = true) (laws : term.Interprets effect)
    (env : Env) (record : LogRecord) :
    ∃ ps, self.pieces env term record = .ok ps ∧
      self.format env term record = .ok (ps.flatMap (Piece.render term)) ∧
      ((∀ before bytes after, ps = before ++ .text bytes :: after →
          styling term effect before = nestedStyling before) ↔
        ∀ before after, self.outline record.fields.entries.length = before ++ none :: after →
          Overlay.Covered before.reduceOption) := by
  obtain ⟨ps, hps, out⟩ := pieces_of_parse h env term record
  refine ⟨ps, hps, out, ?_⟩
  obtain ⟨_, rfl⟩ := parsed_of_parse h
  rw [← pieces_mark (wellFormed_of_parse h) on hps]
  constructor
  · intro nested before after split
    obtain ⟨left, rest, rfl, rfl, hrest⟩ := List.map_eq_append_iff.mp split
    obtain ⟨piece, right, rfl, hpiece, rfl⟩ := List.map_eq_cons_iff.mp hrest
    obtain ⟨bytes, rfl⟩ := mark_eq_none hpiece
    exact (styling_eq_nested_iff laws left).mp (nested left bytes right rfl)
  · intro covered before bytes after split
    refine (styling_eq_nested_iff laws before).mpr (covered _ (after.map Piece.mark) ?_)
    rw [split, List.map_append, List.map_cons]
    rfl

def colourConfig : Config where
  useColours := some true

theorem styling_nested_sample :
    ∃ self ps, parse (str "%bold%L%style:end %m") colourConfig = .ok self ∧
      self.pieces default ansi LogRecord.default = .ok ps ∧
      self.format default ansi LogRecord.default = .ok (ps.flatMap (Piece.render ansi)) ∧
      ((∀ before bytes after, ps = before ++ .text bytes :: after →
          styling ansi ansiEffect before = nestedStyling before) ↔
        ∀ before after, self.outline LogRecord.default.fields.entries.length =
          before ++ none :: after → Overlay.Covered before.reduceOption) := by
  obtain ⟨self, hself, _⟩ := ok_of_any (x := parse (str "%bold%L%style:end %m") colourConfig)
    (P := fun _ => true) (by decide +kernel)
  obtain ⟨ps, hps, out, iff_⟩ :=
    styling_nested_iff hself rfl ansi_interprets default LogRecord.default
  exact ⟨self, ps, hself, hps, out, iff_⟩

/-- Bold around italic: closing the italic ends the bold. -/
theorem styling_not_always_nested :
    ¬ ∀ (input : Bytes) (config : Config) (self : Pattern) (term : Terminal)
      (effect : Bytes → Styling → Styling) (env : Env) (record : LogRecord) (ps : List Piece),
      parse input config = .ok self → isColorsEnabled term config.useColours = true →
      term.Interprets effect → self.pieces env term record = .ok ps →
      ∀ before bytes after, ps = before ++ .text bytes :: after →
        styling term effect before = nestedStyling before := by
  intro always
  let before : List Piece :=
    [.style (.set .bold), .style (.set .italic), .text (str " x"), .style .close]
  obtain ⟨self, hself, hps⟩ := ok_of_any
    (x := parse (str "%bold%italic x%style:end y%style:end") colourConfig)
    (P := fun self => (self.pieces default ansi LogRecord.default).toOption ==
      some (before ++ .text (str " y") :: [.style .close]))
    (by decide +kernel)
  have same := always _ _ self ansi ansiEffect default LogRecord.default _ hself rfl
    ansi_interprets (toOption_eq_some.mp (beq_iff_eq.mp hps)) before _ _ rfl
  rw [styling_eq ansi_interprets] at same
  exact absurd (congrFun same .bold) (by decide)

end Pattern
end Logrin.Formatter
