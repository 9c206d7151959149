import Logrin.PatternRender

/-!
The two renderers of a parsed pattern: `Pattern::Format` without colours and
`ParsedPattern::FormatSegments`. They treat every kind of segment alike but one: the
dispatch of `FormatSegment` has no case for the level.
-/

namespace Logrin.Pattern
open Logrin.Library

theorem length_le_applyPadding (content : Bytes) (d : Directive) :
    content.length ≤ (applyPadding content d).length := by
  simp only [applyPadding]
  split
  · exact Nat.le_refl _
  · next padded =>
      cases halign : d.alignment with
      | none => simp [Directive.hasPadding, halign] at padded
      | left | right => simp
      | center => simp; omega

theorem length_le_padded (content : Bytes) (segment : Segment) :
    content.length ≤ (ParsedPattern.padded segment content).length := by
  simp only [ParsedPattern.padded]
  split
  · split
    · exact length_le_applyPadding content _
    · exact Nat.le_refl _
  · exact Nat.le_refl _

theorem levelToString_ne_nil (level : LogLevel) (spec : Bytes) :
    0 < (levelToString level spec).length := by
  have plain : 0 < level.toString.length := by cases level <;> decide
  simp only [levelToString]
  split
  · rwa [List.length_map]
  · split
    · rwa [List.length_map]
    · exact plain

end Logrin.Pattern

namespace Logrin.Formatter.Pattern
open Logrin.Library
open Logrin.Pattern

variable {self : Pattern} {env : Env} {term : Terminal} {record : LogRecord}
  {pattern : ParsedPattern} {segment : Segment}
  {formatPattern : ParsedPattern → Except Fault Bytes}

theorem formatAttribute_agrees :
    formatAttribute env segment pattern record = pattern.formatAttribute env segment record := by
  simp only [formatAttribute, ParsedPattern.formatAttribute]
  cases segment.spec pattern.pattern with
  | error fault => rfl
  | ok spec =>
      cases spec with
      | none => rfl
      | some key =>
          simp only [ok_bind]
          cases record.fields.lookup key with
          | none => rfl
          | some value => cases value <;> rfl

/-- Without colours the styling segments add nothing. -/
theorem formatSegment_agrees (off : isColorsEnabled term self.config.useColours = false)
    (level : segment.kind ≠ .level) (attributes : segment.kind ≠ .allAttributes) :
    self.formatSegment env term formatPattern segment pattern record =
      pattern.formatSegment env segment record := by
  have dark : ¬ isColorsEnabled term self.config.useColours = true := by rw [off]; decide
  cases hkind : segment.kind with
  | level => exact absurd hkind level
  | allAttributes => exact absurd hkind attributes
  | «attribute» =>
      simp only [formatSegment, ParsedPattern.formatSegment, hkind, formatAttribute_agrees]
  | literal | timestamp | message | logger | file | functionName | lineNum | columnNum
  | threadId => simp only [formatSegment, ParsedPattern.formatSegment, hkind]
  | foregroundColorStart | backgroundColorStart =>
      simp only [formatSegment, ParsedPattern.formatSegment, hkind, emitColour, if_neg dark]
  | levelColorStart =>
      simp only [formatSegment, ParsedPattern.formatSegment, hkind, emitLevelColour, if_neg dark]
  | bold | dim | italic | underline | strikethrough =>
      simp only [formatSegment, ParsedPattern.formatSegment, hkind, emitStyle, if_neg dark]
  | styleEnd =>
      simp only [formatSegment, ParsedPattern.formatSegment, hkind, emitStyleEnd, if_neg dark]

/-- A level segment prints something in one renderer and nothing in the other. -/
theorem formatSegment_level {out out' : Bytes} (level : segment.kind = .level)
    (h : self.formatSegment env term formatPattern segment pattern record = .ok out)
    (h' : pattern.formatSegment env segment record = .ok out') : out'.length < out.length := by
  simp only [formatSegment, ParsedPattern.formatSegment, level, ParsedPattern.formatLevel] at h h'
  obtain ⟨spec, _, h⟩ := bind_eq_ok.mp h
  cases h
  cases h'
  exact Nat.lt_of_lt_of_le (levelToString_ne_nil record.level _) (length_le_padded _ segment)

/-- For a text without `%A` and colours off the renderers agree exactly when the text has
no `%L`. -/
theorem format_eq_formatSegments_iff {input : Bytes} {config : Config} {p : ParsedPattern}
    (h : parse input config = .ok self) (parsed : Logrin.Pattern.parse input { } = .ok p)
    (off : config.useColours = some false)
    (plain : ∀ segment ∈ p.segments, segment.kind ≠ .allAttributes)
    (env : Env) (term : Terminal) (record : LogRecord) :
    self.format env term record = p.formatSegments env record ↔
      ∀ segment ∈ p.segments, segment.kind ≠ .level := by
  obtain ⟨out, hout⟩ := format_ok h env term record
  obtain ⟨held, rfl⟩ := parsed_of_parse h
  obtain rfl := Except.ok.inj (parsed.symm.trans held)
  have dark : isColorsEnabled term self.config.useColours = false := by rw [off]; rfl
  constructor
  · intro same segment member level
    have shorter := concatM_shorter hout (same.symm.trans hout) ?_
    · exact Nat.lt_irrefl _ (shorter.2 ⟨segment, member, fun _ _ => formatSegment_level level⟩)
    · intro other member x y hx hy
      by_cases level : other.kind = .level
      · exact Nat.le_of_lt (formatSegment_level level hx hy)
      · rw [formatSegment_agrees dark level (plain other member), hy] at hx
        cases hx
        exact Nat.le_refl _
  · intro noLevel
    exact concatM_congr fun segment member =>
      formatSegment_agrees dark (noLevel segment member) (plain segment member)

def plainConfig : Config where
  useColours := some false

theorem format_eq_formatSegments_sample :
    ∃ (self : Pattern) (p : ParsedPattern),
      parse (str "%bold%n\x7b>8\x7d%style:end %m") plainConfig = .ok self ∧
      Logrin.Pattern.parse (str "%bold%n\x7b>8\x7d%style:end %m") { } = .ok p ∧
      self.format default default LogRecord.default =
        p.formatSegments default LogRecord.default := by
  obtain ⟨self, hself, _⟩ : ∃ self,
      parse (str "%bold%n\x7b>8\x7d%style:end %m") plainConfig = .ok self ∧ true = true :=
    ok_of_any (by decide +kernel)
  obtain ⟨p, hp, kinds⟩ := ok_of_any
    (x := Logrin.Pattern.parse (str "%bold%n\x7b>8\x7d%style:end %m") { })
    (P := fun p => p.segments.all fun s => s.kind ≠ .allAttributes && s.kind ≠ .level)
    (by decide +kernel)
  simp only [List.all_eq_true, Bool.and_eq_true, decide_eq_true_eq] at kinds
  refine ⟨self, p, hself, hp, (format_eq_formatSegments_iff hself hp rfl ?_ _ _ _).mpr ?_⟩
  · exact fun segment member => (kinds segment member).1
  · exact fun segment member => (kinds segment member).2

/-- `%L` alone: one renderer prints the level, the other nothing. -/
theorem renderers_not_always_agree :
    ¬ ∀ (input : Bytes) (config : Config) (self : Pattern) (p : ParsedPattern) (env : Env)
      (term : Terminal) (record : LogRecord), parse input config = .ok self →
      Logrin.Pattern.parse input { } = .ok p → config.useColours = some false →
      (∀ segment ∈ p.segments, segment.kind ≠ .allAttributes) →
      self.format env term record = p.formatSegments env record := by
  intro always
  obtain ⟨self, hself, printed⟩ := ok_of_any (x := parse (str "%L") plainConfig)
    (P := fun self =>
      (self.format default default LogRecord.default).toOption == some (str "trace"))
    (by decide +kernel)
  obtain ⟨p, hp, kinds⟩ := ok_of_any (x := Logrin.Pattern.parse (str "%L") { })
    (P := fun p => (p.segments.all fun s => s.kind ≠ .allAttributes) &&
      (p.formatSegments default LogRecord.default).toOption == some [])
    (by decide +kernel)
  simp only [List.all_eq_true, Bool.and_eq_true, decide_eq_true_eq, beq_iff_eq] at printed kinds
  have same := always _ _ self p default default LogRecord.default hself hp rfl kinds.1
  rw [same, kinds.2] at printed
  exact absurd printed (by decide)

end Logrin.Formatter.Pattern
