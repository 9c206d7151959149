import Logrin.PatternPieces
import Mathlib.Tactic.Choose

/-!
What `%A` appends: the fields joined by single spaces, each between the same two strings.
Markers hold literals and styling only, so these strings depend on the level alone and no
marker calls the loop over the fields again.
-/

namespace Logrin.Formatter
open Logrin.Library
open Logrin.Pattern

theorem intercalate_cons {α : Type} (sep x : List α) (xs : List (List α)) :
    List.intercalate sep (x :: xs) = x ++ xs.flatMap (sep ++ ·) := by
  induction xs generalizing x with
  | nil => simp
  | cons y ys ih =>
      rw [List.intercalate_cons_cons, ih]
      simp

namespace Pattern
variable {self : Pattern} {env env' : Env} {term : Terminal} {record record' : LogRecord}
  {pattern marker : ParsedPattern} {segment : Segment}
  {formatPattern formatPattern' : ParsedPattern → Except Fault Bytes}

theorem MarkerOk.no_allAttributes (h : MarkerOk marker) :
    ∀ segment ∈ marker.segments, segment.kind ≠ .allAttributes := by
  intro segment member attributes
  have kind := h.kind member
  rw [attributes] at kind
  exact absurd kind (by decide)

/-- A literal or style segment reads nothing of the record but its level. -/
theorem formatSegment_of_level
    (kind : segment.kind = .literal ∨ isStyleStart segment.kind = true ∨ segment.kind = .styleEnd)
    (same : record.level = record'.level) :
    self.formatSegment env term formatPattern segment pattern record =
      self.formatSegment env' term formatPattern' segment pattern record' := by
  cases hkind : segment.kind with
  | literal | foregroundColorStart | backgroundColorStart => simp only [formatSegment, hkind]
  | bold | dim | italic | underline | strikethrough | styleEnd =>
      simp only [formatSegment, hkind]
  | levelColorStart => simp only [formatSegment, hkind, emitLevelColour, levelColour, same]
  | _ => simp [hkind, isStyleStart] at kind

/-- A marker looks the same around all fields of all records of a level. -/
theorem formatPattern_of_level (h : MarkerOk marker) (same : record.level = record'.level)
    (depth depth' : Nat) :
    self.formatPattern env term record (depth + 1) marker =
      self.formatPattern env' term record' (depth' + 1) marker :=
  concatM_congr fun _ member => formatSegment_of_level (h.kind member) same

/-- What a marker, or the text it stands for, looks like at each level. -/
theorem formatMarker_level (self : Pattern) (term : Terminal) {marker : Option ParsedPattern}
    (h : ∀ m, marker = some m → MarkerOk m) (text : Bytes) :
    ∃ shown : LogLevel → Bytes, ∀ env record depth,
      formatMarker (self.formatPattern env term record (depth + 1)) marker text =
        .ok (shown record.level) := by
  cases marker with
  | none => exact ⟨fun _ => text, fun _ _ _ => rfl⟩
  | some m =>
      have ok := h m rfl
      have succeeds : ∀ level : LogLevel, ∃ out,
          self.formatPattern default term { LogRecord.default with level := level } 1 m =
            .ok out :=
        fun level => formatMarkerPattern_ok ok 0
      choose shown hshown using succeeds
      refine ⟨shown, ?_⟩
      intro env record depth
      rw [formatMarker, ← hshown record.level]
      refine formatPattern_of_level ok ?_ depth 0
      rfl

/-- A field of `%A` between its markers. -/
def shownField (self : Pattern) (env : Env) (before after : Bytes)
    (field : Sigma fun _ : Bytes => AttributeValue) : Bytes :=
  before ++ field.1 ++ self.config.delimiter ++ appendAttributeValue env field.2 ++ after

/-- The loop over the fields; all but the first are preceded by a space. -/
theorem formatFields_join {before after : Bytes}
    (left : formatMarker formatPattern self.prefixMarker self.config.markers.1 = .ok before)
    (right : formatMarker formatPattern self.suffixMarker self.config.markers.2 = .ok after)
    (first : Bool) (fields : List (Sigma fun _ : Bytes => AttributeValue)) :
    self.formatFields env formatPattern first fields =
      .ok (if first then List.intercalate (str " ") (fields.map (self.shownField env before after))
        else (fields.map (self.shownField env before after)).flatMap (str " " ++ ·)) := by
  induction fields generalizing first with
  | nil => cases first <;> rfl
  | cons field fields ih =>
      rw [formatFields, left, right, ok_bind, ok_bind, ih false]
      cases first with
      | true => simp [intercalate_cons, shownField]
      | false => simp [shownField]

theorem all_attributes_join {input : Bytes} {config : Config} (h : parse input config = .ok self)
    (term : Terminal) :
    (∀ marker, self.prefixMarker = some marker ∨ self.suffixMarker = some marker →
      ∀ segment ∈ marker.segments, segment.kind ≠ .allAttributes) ∧
    ∃ before after : LogLevel → Bytes, ∀ env record depth segment pattern,
      segment.kind = .allAttributes →
      self.formatSegment env term (self.formatPattern env term record (depth + 1)) segment pattern
          record =
        .ok (List.intercalate (str " ") (record.fields.entries.map fun field =>
          before record.level ++ field.1 ++ config.delimiter ++
            appendAttributeValue env field.2 ++ after record.level)) := by
  have formed := wellFormed_of_parse h
  obtain ⟨_, rfl⟩ := parsed_of_parse h
  constructor
  · intro marker either
    cases either with
    | inl same => exact (formed.prefixOk marker same).no_allAttributes
    | inr same => exact (formed.suffixOk marker same).no_allAttributes
  · obtain ⟨before, left⟩ := formatMarker_level self term formed.prefixOk self.config.markers.1
    obtain ⟨after, right⟩ := formatMarker_level self term formed.suffixOk self.config.markers.2
    refine ⟨before, after, ?_⟩
    intro env record depth segment pattern attributes
    simp only [formatSegment, attributes, formatAllAttributes]
    exact formatFields_join (left env record depth) (right env record depth) true _

theorem all_attributes_join_sample :
    ∃ self, parse (str "%A") { markers := (str "%levelColor[", str "]%style:end") } = .ok self ∧
      ∃ before after : LogLevel → Bytes, ∀ env record depth segment pattern,
        segment.kind = .allAttributes →
        self.formatSegment env default (self.formatPattern env default record (depth + 1)) segment
            pattern record =
          .ok (List.intercalate (str " ") (record.fields.entries.map fun field =>
            before record.level ++ field.1 ++ str "=" ++
              appendAttributeValue env field.2 ++ after record.level)) := by
  obtain ⟨self, hself, _⟩ : ∃ self, parse (str "%A")
      { markers := (str "%levelColor[", str "]%style:end") } = .ok self ∧ true = true :=
    ok_of_any (by decide +kernel)
  exact ⟨self, hself, (all_attributes_join hself default).2⟩

end Pattern
end Logrin.Formatter
