import Logrin.PatternPieces

/-!
Colours only decorate: without the styling pieces the output is the one with colours off,
and the one of the same segments without the style directives.
-/

namespace Logrin.Formatter
open Logrin.Library
open Logrin.Pattern

/-- The segments of the kinds in `keep`. -/
def restrict (keep : SegmentKind → Bool) (pattern : ParsedPattern) : ParsedPattern :=
  { pattern with segments := pattern.segments.filter fun segment => keep segment.kind }

def Piece.isText : Piece → Bool
  | .text _ => true
  | .style _ => false

namespace Pattern

def stripped (self : Pattern) : Pattern :=
  { self with
    parsed := restrict (fun kind => !isStyle kind) self.parsed
    prefixMarker := self.prefixMarker.map (restrict fun kind => !isStyle kind)
    suffixMarker := self.suffixMarker.map (restrict fun kind => !isStyle kind) }

/-- `other` holds the segments of `full` of the kinds in `keep`: all that are not styling,
and styling only where it is silent. -/
structure Undecorated (term : Terminal) (keep : SegmentKind → Bool) (full other : Pattern) :
    Prop where
  parsed : other.parsed = restrict keep full.parsed
  markers : other.config.markers = full.config.markers
  delimiter : other.config.delimiter = full.config.delimiter
  before : other.prefixMarker = full.prefixMarker.map (restrict keep)
  after : other.suffixMarker = full.suffixMarker.map (restrict keep)
  plain : ∀ kind, isStyle kind = false → keep kind = true
  silent : ∀ kind, isStyle kind = true → keep kind = true →
    isColorsEnabled term other.config.useColours = false

variable {self other : Pattern} {env : Env} {term : Terminal} {record : LogRecord}
  {keep : SegmentKind → Bool} {pattern : ParsedPattern} {segment : Segment}
  {pieces₁ pieces₂ : ParsedPattern → Except Fault (List Piece)}

theorem colourOp_no_text {setting : RGB → Setting} {x : List Piece}
    (h : colourOp setting segment pattern = .ok x) : x.filter Piece.isText = [] := by
  obtain ⟨spec, _, h⟩ := bind_eq_ok.mp h
  cases spec with
  | none =>
      cases h
      rfl
  | some spec =>
      obtain ⟨_, _, h⟩ := bind_eq_ok.mp h
      cases h
      rfl

theorem stylePieces_no_text {x : List Piece}
    (h : self.stylePieces term segment pattern record = .ok x) : x.filter Piece.isText = [] := by
  cases hkind : segment.kind with
  | foregroundColorStart | backgroundColorStart =>
      simp only [stylePieces, hkind] at h
      exact colourOp_no_text h
  | levelColorStart =>
      simp only [stylePieces, hkind] at h
      obtain ⟨_, _, h⟩ := bind_eq_ok.mp h
      cases h
      rfl
  | _ =>
      simp only [stylePieces, hkind] at h
      cases h
      rfl

/-- Style segments give styling only. -/
theorem segmentPieces_no_text (style : isStyle segment.kind = true) {x : List Piece}
    (h : self.segmentPieces env term pieces₁ segment pattern record = .ok x) :
    x.filter Piece.isText = [] := by
  have other : segment.kind ≠ .allAttributes := by
    intro attributes
    rw [attributes] at style
    cases style
  rw [segmentPieces, if_neg other, if_pos style] at h
  split at h
  · exact stylePieces_no_text h
  · cases h
    rfl

/-- Segments that are neither styling nor `%A` read the stored text only. -/
theorem formatSegment_restrict (other_ : segment.kind ≠ .allAttributes)
    (plain : isStyle segment.kind = false) (formatPattern : ParsedPattern → Except Fault Bytes) :
    other.formatSegment env term formatPattern segment (restrict keep pattern) record =
      self.formatSegment env term formatPattern segment pattern record := by
  cases hkind : segment.kind with
  | allAttributes => exact absurd hkind other_
  | foregroundColorStart | backgroundColorStart | levelColorStart | bold | dim | italic | underline
    | strikethrough | styleEnd => simp [isStyle, isStyleStart, hkind] at plain
  | literal | timestamp | level | threadId | «attribute» =>
      simp only [formatSegment, hkind]
      rfl
  | message | logger | file | functionName | lineNum | columnNum =>
      simp only [formatSegment, hkind]

theorem markerPieces_filter (related : ∀ marker x, pieces₁ marker = .ok x →
      pieces₂ (restrict keep marker) = .ok (x.filter Piece.isText))
    {marker : Option ParsedPattern} {text : Bytes} {x : List Piece}
    (h : markerPieces pieces₁ marker text = .ok x) :
    markerPieces pieces₂ (marker.map (restrict keep)) text = .ok (x.filter Piece.isText) := by
  cases marker with
  | none =>
      cases h
      rfl
  | some marker => exact related marker x h

theorem fieldsPieces_filter (u : Undecorated term keep self other)
    (related : ∀ marker x, pieces₁ marker = .ok x →
      pieces₂ (restrict keep marker) = .ok (x.filter Piece.isText))
    (first : Bool) {fields : List (Sigma fun _ : Bytes => AttributeValue)} {x : List Piece}
    (h : self.fieldsPieces env pieces₁ first fields = .ok x) :
    other.fieldsPieces env pieces₂ first fields = .ok (x.filter Piece.isText) := by
  induction fields generalizing first x with
  | nil =>
      cases h
      rfl
  | cons field fields ih =>
      obtain ⟨left, hleft, h⟩ := bind_eq_ok.mp h
      obtain ⟨right, hright, h⟩ := bind_eq_ok.mp h
      obtain ⟨rest, hrest, h⟩ := bind_eq_ok.mp h
      cases h
      simp only [fieldsPieces, u.before, u.after, u.markers, u.delimiter,
        markerPieces_filter related hleft, markerPieces_filter related hright, ih false hrest,
        ok_bind]
      cases first <;> simp [List.filter_cons, Piece.isText]

theorem segmentPieces_filter (u : Undecorated term keep self other)
    (related : ∀ marker x, pieces₁ marker = .ok x →
      pieces₂ (restrict keep marker) = .ok (x.filter Piece.isText))
    (kept : keep segment.kind = true) {x : List Piece}
    (h : self.segmentPieces env term pieces₁ segment pattern record = .ok x) :
    other.segmentPieces env term pieces₂ segment (restrict keep pattern) record =
      .ok (x.filter Piece.isText) := by
  by_cases attributes : segment.kind = .allAttributes
  · simp only [segmentPieces, if_pos attributes] at h ⊢
    exact fieldsPieces_filter u related true h
  · cases style : isStyle segment.kind with
    | true =>
        rw [segmentPieces_no_text style h]
        simp [segmentPieces, attributes, style, u.silent _ style kept]
    | false =>
        simp only [segmentPieces, if_neg attributes, style, Bool.false_eq_true, if_false] at h ⊢
        obtain ⟨text, htext, h⟩ := bind_eq_ok.mp h
        cases h
        rw [formatSegment_restrict attributes style, htext]
        rfl

/-- The pieces of the undecorated formatter are the texts, however deep the markers. -/
theorem patternPieces_filter (u : Undecorated term keep self other) (depth : Nat)
    {pattern : ParsedPattern} {x : List Piece}
    (h : self.patternPieces env term record depth pattern = .ok x) :
    other.patternPieces env term record depth (restrict keep pattern) =
      .ok (x.filter Piece.isText) := by
  induction depth generalizing pattern x with
  | zero => cases h
  | succ depth ih =>
      refine concatM_filter h ?_ ?_
      · intro segment _ kept x hx
        exact segmentPieces_filter u (fun _ _ => ih) kept hx
      · intro segment _ dropped x hx
        cases style : isStyle segment.kind with
        | true => exact segmentPieces_no_text style hx
        | false => rw [u.plain _ style] at dropped; cases dropped

theorem format_undecorated (u : Undecorated term keep self other) {x : List Piece}
    (h : self.pieces env term record = .ok x) :
    other.format env term record =
      .ok ((x.filter Piece.isText).flatMap (Piece.render term)) := by
  rw [format_eq_pieces, pieces, u.parsed, patternPieces_filter u 2 h]
  rfl

theorem restrict_all (pattern : ParsedPattern) : restrict (fun _ => true) pattern = pattern := by
  simp [restrict]

theorem map_restrict_all (marker : Option ParsedPattern) :
    marker.map (restrict fun _ => true) = marker := by
  cases marker with
  | none => rfl
  | some pattern => simp [restrict_all]

theorem undecorated_dark (self : Pattern) (term : Terminal) (config : Config)
    (levels : Option LevelColorPalette) :
    Undecorated term (fun _ => true) { self with config := { config with useColours := some true } }
      { self with
        config := { config with useColours := some false, levelColorMap := levels } } where
  parsed := (restrict_all _).symm
  markers := rfl
  delimiter := rfl
  before := (map_restrict_all _).symm
  after := (map_restrict_all _).symm
  plain := fun _ _ => rfl
  silent := fun _ _ _ => rfl

theorem undecorated_stripped (self : Pattern) (term : Terminal) (config : Config)
    (colours : Option Bool) (levels : Option LevelColorPalette) :
    Undecorated term (fun kind => !isStyle kind)
      { self with config := { config with useColours := some true } }
      { self with
        config := { config with useColours := colours, levelColorMap := levels } }.stripped where
  parsed := rfl
  markers := rfl
  delimiter := rfl
  before := rfl
  after := rfl
  plain := fun kind plain => by simp [plain]
  silent := fun kind style kept => by simp [style] at kept

/-- Neither the colour decision nor the level colours matter to the parser. -/
theorem parse_config {input : Bytes} {config : Config} (h : parse input config = .ok self)
    (colours : Option Bool) (levels : Option LevelColorPalette) :
    parse input { config with useColours := colours, levelColorMap := levels } =
      .ok { self with
        config := { config with useColours := colours, levelColorMap := levels } } := by
  obtain ⟨hparse, valid, hbefore, hafter, _⟩ := parse_eq_ok.mp h
  exact parse_eq_ok.mpr ⟨hparse, valid, hbefore, hafter, rfl⟩

theorem pieces_ok (formed : self.WellFormed) (env : Env) (term : Terminal) (record : LogRecord) :
    ∃ ps, self.pieces env term record = .ok ps := by
  obtain ⟨out, hout⟩ : ∃ out, self.format env term record = .ok out := formatPattern_ok formed 0
  rw [format_eq_pieces] at hout
  cases hpieces : self.pieces env term record with
  | error fault =>
      rw [hpieces] at hout
      cases hout
  | ok ps => exact ⟨ps, rfl⟩

/-- With colours on the output is a list of pieces; its texts are the output with colours off,
whatever the level colours, and the output without the style segments. -/
theorem colours_only_decorate {input : Bytes} {config : Config}
    (h : parse input config = .ok self) (env : Env) (term : Terminal) (record : LogRecord) :
    ∃ lit ps, parse input { config with useColours := some true } = .ok lit ∧
      lit.pieces env term record = .ok ps ∧
      lit.format env term record = .ok (ps.flatMap (Piece.render term)) ∧
      (∀ levels, ∃ dark,
        parse input { config with useColours := some false, levelColorMap := levels } = .ok dark ∧
        dark.format env term record =
          .ok ((ps.filter Piece.isText).flatMap (Piece.render term))) ∧
      ∀ colours levels, ∃ any,
        parse input { config with useColours := colours, levelColorMap := levels } = .ok any ∧
        any.stripped.format env term record =
          .ok ((ps.filter Piece.isText).flatMap (Piece.render term)) := by
  have hlit := parse_config h (some true) config.levelColorMap
  obtain ⟨ps, hps⟩ := pieces_ok (wellFormed_of_parse hlit) env term record
  refine ⟨_, ps, hlit, hps, ?_, ?_, ?_⟩
  · rw [format_eq_pieces, hps]
    rfl
  · intro levels
    refine ⟨_, parse_config h (some false) levels, ?_⟩
    exact format_undecorated (undecorated_dark self term config levels) hps
  · intro colours levels
    refine ⟨_, parse_config h colours levels, ?_⟩
    exact format_undecorated (undecorated_stripped self term config colours levels) hps

theorem colours_only_decorate_sample :
    ∃ lit ps, parse (str "%fg\x7bred\x7d%L%style:end %A") { useColours := some true } = .ok lit ∧
      lit.pieces default ansi (LogRecord.default.withField (str "k") (.bool true)) = .ok ps ∧
      ∃ dark, parse (str "%fg\x7bred\x7d%L%style:end %A") { useColours := some false } = .ok dark ∧
        dark.format default ansi (LogRecord.default.withField (str "k") (.bool true)) =
          .ok ((ps.filter Piece.isText).flatMap (Piece.render ansi)) := by
  obtain ⟨self, hself, _⟩ : ∃ self,
      parse (str "%fg\x7bred\x7d%L%style:end %A") { } = .ok self ∧ true = true :=
    ok_of_any (by decide +kernel)
  obtain ⟨lit, ps, hlit, hps, _, dark, _⟩ :=
    colours_only_decorate hself default ansi
      (LogRecord.default.withField (str "k") (.bool true))
  exact ⟨lit, ps, hlit, hps, dark none⟩

end Pattern
end Logrin.Formatter
