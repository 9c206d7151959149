import Logrin.PatternFormatter
import Logrin.PatternSpan

/-!
Rendering cannot fail once parsing succeeded: stored offsets lie inside the stored text,
every colour specification has been read once before, and markers hold no `%A`.
-/

namespace Logrin.Pattern
open Logrin.Library

variable {input : Bytes} {config : ParseConfig}

/-- The offsets a segment uses lie inside the text. -/
structure Segment.InRange (pattern : Bytes) (segment : Segment) : Prop where
  text : segment.text.1.toNat ≤ pattern.length
  spec : ∀ d, segment.directive = some d → d.hasSpecification = true →
    d.specOffset.toNat ≤ pattern.length

theorem toNat_ofNat_le (n : Nat) : (UInt16.ofNat n).toNat ≤ n := by
  rw [UInt16.toNat_ofNat']
  exact Nat.mod_le _ _

theorem TokenAt.inRange {len a b : Nat} {t : Token} {segment : Segment}
    (short : len ≤ input.length) (lies : TokenAt input len a b t)
    (stored : Stored input t segment) : segment.InRange input := by
  cases lies with
  | literal run =>
      obtain ⟨_, text, directive⟩ := stored
      have some := run.some
      have fits := run.fits
      refine ⟨?_, by simp [directive]⟩
      rw [text]
      exact Nat.le_trans (toNat_ofNat_le a) (by omega)
  | escape first more second =>
      obtain ⟨_, text, directive⟩ := stored
      refine ⟨?_, by simp [directive]⟩
      rw [text]
      exact Nat.le_trans (toNat_ofNat_le (a + 1)) (by omega)
  | @directive nameEnd kind block _ _ _ read =>
      obtain ⟨_, text, stored⟩ := stored
      refine ⟨by simp [text], ?_⟩
      intro d same has
      cases block with
      | none =>
          rw [← Option.some.inj stored] at same
          cases same
      | some stop =>
          obtain ⟨d', parsed, same'⟩ := Option.map_eq_some_iff.mp stored
          obtain rfl : d' = d := Option.some.inj (same'.trans same)
          obtain ⟨length_, offset_⟩ := parse_spec (toOption_eq_some.mp parsed)
          have some : 0 < specSize kind (slice input (nameEnd + 1) (stop - 1)) := by
            apply Nat.pos_of_ne_zero
            intro zero
            rw [zero] at length_
            simp [Directive.hasSpecification, length_] at has
          have open_ : nameEnd < len := readBlock_inside read
          rw [offset_ some]
          exact Nat.le_trans (toNat_ofNat_le (nameEnd + 1)) (by omega)

theorem parse_inRange {p : ParsedPattern} (h : parse input config = .ok p) :
    ∀ segment ∈ p.segments, segment.InRange p.pattern := by
  obtain ⟨ts, hts, stored, _, few, rfl⟩ := parse_stored h
  obtain ⟨stop, _, tiles⟩ := tokens_tile hts (stored.length_eq ▸ few)
  exact forall_of_forall₂ (tiles.forall₂ stored fun _ _ _ _ lies same =>
    lies.inRange (u32_le _) same)

theorem parse_checked {p : ParsedPattern} (h : parse input config = .ok p) :
    ∀ segment ∈ p.segments, segment.Checked config := by
  obtain ⟨_, _, _, checked, _, _⟩ := parse_stored h
  exact checked

theorem Segment.InRange.spec_ok {pattern : Bytes} {segment : Segment}
    (h : segment.InRange pattern) : ∃ spec, segment.spec pattern = .ok spec := by
  simp only [Segment.spec]
  split
  · next d same =>
      split
      · next has =>
          rw [Directive.specification, substr, if_neg (Nat.not_lt.mpr (h.spec d same has))]
          exact ⟨_, rfl⟩
      · exact ⟨none, rfl⟩
  · exact ⟨none, rfl⟩

end Logrin.Pattern

namespace Logrin.Formatter
open Logrin.Library
open Logrin.Pattern

/-- A segment whose formatting cannot fail. -/
structure Renderable (pattern : ParsedPattern) (segment : Segment) : Prop where
  inRange : segment.InRange pattern.pattern
  colour : isColour segment.kind = true → ∀ spec,
    segment.spec pattern.pattern = .ok (some spec) → ∃ rgb, parseColorSpec spec = .ok rgb

theorem returned_eq_ok {α : Type} {x : Except Error α} {a : α} :
    returned x = .ok a ↔ x = .ok a := by
  cases x <;> simp [returned]

theorem validateColorSpec_spec {p : ParsedPattern} {segment : Segment} {spec : Bytes}
    (h : validateColorSpec p segment = .ok ()) (colour : isColour segment.kind = true)
    (same : segment.spec p.pattern = .ok (some spec)) : ∃ rgb, parseColorSpec spec = .ok rgb := by
  rw [validateColorSpec, if_pos colour, same, raised, ok_bind] at h
  obtain ⟨rgb, hrgb, _⟩ := bind_eq_ok.mp h
  exact ⟨rgb, returned_eq_ok.mp hrgb⟩

theorem forM_eq_ok {α : Type} {f : α → Except ParseFailure Unit} {as : List α} :
    as.forM f = .ok () ↔ ∀ a ∈ as, f a = .ok () := by
  induction as with
  | nil => exact ⟨fun _ => by simp, fun _ => rfl⟩
  | cons a as ih =>
      have split : (a :: as).forM f = (f a >>= fun _ => as.forM f) := rfl
      rw [split, bind_eq_ok, List.forall_mem_cons, ← ih]
      exact ⟨fun ⟨_, first, rest⟩ => ⟨first, rest⟩, fun both => ⟨(), both.1, both.2⟩⟩

theorem renderable_of_parse {input : Bytes} {config : ParseConfig} {p : ParsedPattern}
    (h : Logrin.Pattern.parse input config = .ok p) (valid : validateColorSpecs p = .ok ()) :
    ∀ segment ∈ p.segments, Renderable p segment := by
  intro segment member
  exact ⟨parse_inRange h segment member, fun colour _ same =>
    validateColorSpec_spec (forM_eq_ok.mp valid segment member) colour same⟩

namespace Pattern

/-- A parsed marker: its segments render, and are literals or styling. -/
structure MarkerOk (marker : ParsedPattern) : Prop where
  renderable : ∀ segment ∈ marker.segments, Renderable marker segment
  checked : ∀ segment ∈ marker.segments, segment.Checked markerParseConfig

/-- What `Pattern::Parse` guarantees. -/
structure WellFormed (pat : Pattern) : Prop where
  renderable : ∀ segment ∈ pat.parsed.segments, Renderable pat.parsed segment
  checked : ∀ segment ∈ pat.parsed.segments, segment.Checked { }
  prefixOk : ∀ marker, pat.prefixMarker = some marker → MarkerOk marker
  suffixOk : ∀ marker, pat.suffixMarker = some marker → MarkerOk marker

theorem parseMarker_ok {label : String} {text : Bytes} {marker : ParsedPattern}
    (h : parseMarker label text = .ok (some marker)) : MarkerOk marker := by
  simp only [parseMarker] at h
  split at h
  · cases h
  · split at h
    · cases h
    · next parsed hparse =>
        obtain ⟨_, valid, h⟩ := bind_eq_ok.mp h
        cases h
        exact ⟨renderable_of_parse hparse valid, parse_checked hparse⟩

theorem parse_eq_ok {input : Bytes} {config : Config} {self : Pattern} :
    parse input config = .ok self ↔
      Logrin.Pattern.parse input { } = .ok self.parsed ∧ validateColorSpecs self.parsed = .ok () ∧
      parseMarker "in marker prefix: " config.markers.1 = .ok self.prefixMarker ∧
      parseMarker "in marker suffix: " config.markers.2 = .ok self.suffixMarker ∧
      self.config = config := by
  constructor
  · intro h
    obtain ⟨parsed, hparse, h⟩ := bind_eq_ok.mp h
    obtain ⟨_, valid, h⟩ := bind_eq_ok.mp h
    obtain ⟨before, hbefore, h⟩ := bind_eq_ok.mp h
    obtain ⟨after, hafter, h⟩ := bind_eq_ok.mp h
    cases h
    exact ⟨returned_eq_ok.mp hparse, valid, hbefore, hafter, rfl⟩
  · intro h
    obtain ⟨hparse, valid, hbefore, hafter, rfl⟩ := h
    rw [parse, returned_eq_ok.mpr hparse, ok_bind, valid, ok_bind, hbefore, ok_bind, hafter]
    rfl

/-- What a formatter holds: its text, parsed, and its configuration. -/
theorem parsed_of_parse {input : Bytes} {config : Config} {self : Pattern}
    (h : parse input config = .ok self) :
    Logrin.Pattern.parse input { } = .ok self.parsed ∧ self.config = config := by
  obtain ⟨hparse, _, _, _, same⟩ := parse_eq_ok.mp h
  exact ⟨hparse, same⟩

theorem wellFormed_of_parse {input : Bytes} {config : Config} {self : Pattern}
    (h : parse input config = .ok self) : self.WellFormed := by
  obtain ⟨hparse, valid, hbefore, hafter, _⟩ := parse_eq_ok.mp h
  exact {
    renderable := renderable_of_parse hparse valid
    checked := parse_checked hparse
    prefixOk := fun marker same => parseMarker_ok (hbefore.trans (congrArg _ same))
    suffixOk := fun marker same => parseMarker_ok (hafter.trans (congrArg _ same)) }

variable {self : Pattern} {env : Env} {term : Terminal} {record : LogRecord}
  {pattern : ParsedPattern} {segment : Segment}

theorem formatAttribute_ok (h : Renderable pattern segment) :
    ∃ out, formatAttribute env segment pattern record = .ok out := by
  obtain ⟨spec, hspec⟩ := h.inRange.spec_ok
  simp only [formatAttribute, hspec, ok_bind]
  split
  · split <;> exact ⟨_, rfl⟩
  · exact ⟨[], rfl⟩

theorem emitColour_ok (foreground : Bool) (h : Renderable pattern segment)
    (colour : isColour segment.kind = true) :
    ∃ out, self.emitColour term segment pattern foreground = .ok out := by
  obtain ⟨spec, hspec⟩ := h.inRange.spec_ok
  simp only [emitColour, hspec, ok_bind]
  split
  · cases spec with
    | none => exact ⟨[], rfl⟩
    | some spec =>
        obtain ⟨rgb, hrgb⟩ := h.colour colour spec hspec
        exact ⟨term.paint foreground rgb, by simp only [hrgb, unwrap, ok_bind]⟩
  · exact ⟨[], rfl⟩

theorem levelColour_ok (self : Pattern) (term : Terminal) (record : LogRecord)
    (h : Renderable pattern segment) (colour : isColour segment.kind = true) :
    ∃ rgb, self.levelColour term segment pattern record = .ok rgb := by
  obtain ⟨spec, hspec⟩ := h.inRange.spec_ok
  simp only [levelColour, hspec, ok_bind]
  cases spec with
  | none => exact ⟨_, rfl⟩
  | some spec =>
      obtain ⟨rgb, hrgb⟩ := h.colour colour spec hspec
      exact ⟨rgb, by simp only [hrgb, unwrap]⟩

theorem emitLevelColour_ok (h : Renderable pattern segment)
    (colour : isColour segment.kind = true) :
    ∃ out, self.emitLevelColour term segment pattern record = .ok out := by
  obtain ⟨rgb, hrgb⟩ := levelColour_ok self term record h colour
  simp only [emitLevelColour, hrgb, ok_bind]
  split <;> exact ⟨_, rfl⟩

theorem emitStyle_ok (kind : SegmentKind) : ∃ out, self.emitStyle term kind = .ok out := by
  simp only [emitStyle]
  split
  · split <;> exact ⟨_, rfl⟩
  · exact ⟨[], rfl⟩

theorem emitStyleEnd_ok : ∃ out, self.emitStyleEnd term = .ok out := by
  simp only [emitStyleEnd]
  split <;> exact ⟨_, rfl⟩

theorem formatMarker_ok {formatPattern : ParsedPattern → Except Fault Bytes}
    {marker : Option ParsedPattern} (text : Bytes)
    (h : ∀ m, marker = some m → ∃ out, formatPattern m = .ok out) :
    ∃ out, formatMarker formatPattern marker text = .ok out := by
  cases marker with
  | none => exact ⟨text, rfl⟩
  | some m => exact h m rfl

theorem formatFields_ok {formatPattern : ParsedPattern → Except Fault Bytes}
    (before : ∀ marker, self.prefixMarker = some marker → ∃ out, formatPattern marker = .ok out)
    (after : ∀ marker, self.suffixMarker = some marker → ∃ out, formatPattern marker = .ok out)
    (first : Bool) (fields : List (Sigma fun _ : Bytes => AttributeValue)) :
    ∃ out, self.formatFields env formatPattern first fields = .ok out := by
  obtain ⟨left, hleft⟩ := formatMarker_ok self.config.markers.1 before
  obtain ⟨right, hright⟩ := formatMarker_ok self.config.markers.2 after
  induction fields generalizing first with
  | nil => exact ⟨[], rfl⟩
  | cons field fields ih =>
      obtain ⟨rest, hrest⟩ := ih false
      exact ⟨_, by simp only [formatFields, hleft, hright, hrest, ok_bind]; rfl⟩

theorem formatSegment_ok {formatPattern : ParsedPattern → Except Fault Bytes}
    (h : Renderable pattern segment)
    (attributes : segment.kind = .allAttributes →
      ∃ out, self.formatAllAttributes env formatPattern record = .ok out) :
    ∃ out, self.formatSegment env term formatPattern segment pattern record = .ok out := by
  obtain ⟨spec, hspec⟩ := h.inRange.spec_ok
  simp only [formatSegment]
  cases hkind : segment.kind with
  | literal =>
      exact ⟨_, by rw [ParsedPattern.formatLiteral, substr,
        if_neg (Nat.not_lt.mpr h.inRange.text)]⟩
  | timestamp =>
      simp only [ParsedPattern.formatTimestamp, hspec, ok_bind]
      split <;> split <;> exact ⟨_, rfl⟩
  | level =>
      simp only [ParsedPattern.formatLevel, hspec, ok_bind]
      exact ⟨_, rfl⟩
  | threadId =>
      simp only [ParsedPattern.formatThreadId, hspec, ok_bind]
      split <;> exact ⟨_, rfl⟩
  | message | logger | file | functionName | lineNum | columnNum => exact ⟨_, rfl⟩
  | «attribute» => exact formatAttribute_ok h
  | allAttributes => exact attributes hkind
  | foregroundColorStart => exact emitColour_ok true h (by simp [isColour, hkind])
  | backgroundColorStart => exact emitColour_ok false h (by simp [isColour, hkind])
  | levelColorStart => exact emitLevelColour_ok h (by simp [isColour, hkind])
  | bold | dim | italic | underline | strikethrough => exact emitStyle_ok _
  | styleEnd => exact emitStyleEnd_ok

/-- The kinds a marker can hold. -/
theorem MarkerOk.kind {marker : ParsedPattern} (h : MarkerOk marker)
    (member : segment ∈ marker.segments) :
    segment.kind = .literal ∨ isStyleStart segment.kind = true ∨ segment.kind = .styleEnd := by
  obtain ⟨literal | styled, _⟩ := h.checked segment member
  · exact Or.inl literal
  · revert styled
    cases segment.kind <;> decide

theorem formatMarkerPattern_ok {marker : ParsedPattern} (h : MarkerOk marker) (depth : Nat) :
    ∃ out, self.formatPattern env term record (depth + 1) marker = .ok out := by
  apply concatM_ok
  intro segment member
  apply formatSegment_ok (h.renderable segment member)
  intro attributes
  have kind := h.kind member
  rw [attributes] at kind
  exact absurd kind (by decide)

/-- Formatting succeeds for every record, and no deeper recursion is needed. -/
theorem formatPattern_ok (h : self.WellFormed) (depth : Nat) :
    ∃ out, self.formatPattern env term record (depth + 2) self.parsed = .ok out := by
  apply concatM_ok
  intro segment member
  apply formatSegment_ok (h.renderable segment member)
  intro _
  exact formatFields_ok (fun marker same => formatMarkerPattern_ok (h.prefixOk marker same) depth)
    (fun marker same => formatMarkerPattern_ok (h.suffixOk marker same) depth) _ _

/-- Rendering cannot fail once parsing succeeded. -/
theorem format_ok {input : Bytes} {config : Config} (h : parse input config = .ok self)
    (env : Env) (term : Terminal) (record : LogRecord) :
    ∃ out, self.format env term record = .ok out :=
  formatPattern_ok (wellFormed_of_parse h) 0

theorem format_ok_sample :
    ∃ self out, parse (str "%fg\x7bred\x7d%L%style:end %A") { } = .ok self ∧
      isColorsEnabled ansi self.config.useColours = true ∧
      self.format default ansi (LogRecord.default.withField (str "k") (.bool true)) = .ok out := by
  obtain ⟨self, hself, colours⟩ := ok_of_any
    (x := parse (str "%fg\x7bred\x7d%L%style:end %A") { })
    (P := fun self => isColorsEnabled ansi self.config.useColours) (by decide +kernel)
  obtain ⟨out, hout⟩ :=
    format_ok hself default ansi (LogRecord.default.withField (str "k") (.bool true))
  exact ⟨self, out, hself, colours, hout⟩

/-- The `Unwrap` of the built-in pattern does not fail, and it renders every record. -/
theorem azalia_ok (env : Env) (term : Terminal) (record : LogRecord) :
    ∃ self out, azalia = .ok self ∧ self.format env term record = .ok out := by
  obtain ⟨self, hself, _⟩ : ∃ self, azalia = .ok self ∧ true = true :=
    ok_of_any (by decide +kernel)
  obtain ⟨out, hout⟩ : ∃ out, self.format env term record = .ok out :=
    formatPattern_ok (wellFormed_of_parse hself) 0
  exact ⟨self, out, hself, hout⟩

end Pattern
end Logrin.Formatter
