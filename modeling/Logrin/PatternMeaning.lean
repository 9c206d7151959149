import Logrin.PatternJoin
import Logrin.PatternPadding
import Logrin.PatternReading

/-!
What a pattern means: each item stands for a text of its own, read off the record, the
configuration and the terminal, without offsets and without faults. `format` computes it.
-/

namespace Logrin.Formatter
open Logrin.Library
open Logrin.Pattern

def specOf (kind : SegmentKind) (block : Option Bytes) : Option Bytes :=
  block.bind fun body =>
    if 0 < specSize kind body then some (body.take (specSize kind body)) else none

/-- The content padded as the block of a directive asks. -/
def paddedBy (kind : SegmentKind) (block : Option Bytes) (content : Bytes) : Bytes :=
  match block.bind fun body => (Directive.parse body 0 kind).toOption with
  | some d => pad d.alignment d.width.toNat d.fill content
  | none => content

section Texts
variable (config : Config) (env : Env) (term : Terminal) (record : LogRecord)

def timeText (format : Bytes) : Bytes :=
  let tt := env.toTimeT record.timestamp
  if format = str "iso8601" then env.strftime 32 (str "%Y-%m-%dT%H:%M:%SZ") (env.gmtime tt)
  else env.strftime 128 format (env.localtime tt)

def threadText (spec : Option Bytes) : Bytes :=
  if spec = some (str "hex") then str "0x" ++ hexadecimal env.threadHash.toNat
  else decimal env.threadHash.toNat

def fieldText (key : Bytes) : Bytes :=
  (record.fields.lookup key).elim [] (appendAttributeValue env)

/-- Styling shows only where colours are on. -/
def styled (text : Bytes) : Bytes := if isColorsEnabled term config.useColours then text else []

def colourText (foreground : Bool) (spec : Option Bytes) : Bytes :=
  (spec.bind fun spec => (parseColorSpec spec).toOption).elim [] (term.paint foreground)

def levelColourText (spec : Option Bytes) : Bytes :=
  term.paint true ((spec.bind fun spec => (parseColorSpec spec).toOption).getD
    (getLevelColor term.defaultRGB record.level
      (config.levelColorMap.getD kDefaultLevelColorMap)))

/-- What a directive stands for, given the text of `%A`. -/
def directiveText (attributes : Bytes) (kind : SegmentKind) (block : Option Bytes) : Bytes :=
  match kind with
  | .literal => []
  | .timestamp =>
      timeText env record ((specOf kind block).getD (str "%Y-%m-%d %H:%M:%S"))
  | .level => paddedBy kind block (levelToString record.level ((specOf kind block).getD []))
  | .message => record.message
  | .logger => paddedBy kind block record.logger
  | .file => record.location.file
  | .functionName => record.location.function
  | .lineNum => decimal record.location.line
  | .columnNum => decimal record.location.column
  | .threadId => threadText env (specOf kind block)
  | .allAttributes => attributes
  | .attribute => (specOf kind block).elim [] (fieldText env record)
  | .foregroundColorStart => styled config term (colourText term true (specOf kind block))
  | .backgroundColorStart => styled config term (colourText term false (specOf kind block))
  | .levelColorStart =>
      styled config term (levelColourText config term record (specOf kind block))
  | .bold => styled config term (term.paintStyle { bold := true })
  | .dim => styled config term (term.paintStyle { dim := true })
  | .italic => styled config term (term.paintStyle { italic := true })
  | .underline => styled config term (term.paintStyle { underline := true })
  | .strikethrough => styled config term (term.paintStyle { strikethrough := true })
  | .styleEnd => styled config term (term.paintStyle { })

def itemText (attributes : Bytes) : Item → Bytes
  | .literal text => text
  | .percent => [ch '%']
  | .directive kind block => directiveText config env term record attributes kind block

def itemsText (attributes : Bytes) (items : List Item) : Bytes :=
  items.flatMap (itemText config env term record attributes)

/-- The text of `%A`, from the items of the two markers. -/
def attributesText (before after : List Item) : Bytes :=
  List.intercalate (str " ") (record.fields.entries.map fun field =>
    itemsText config env term record [] before ++ field.1 ++ config.delimiter ++
      appendAttributeValue env field.2 ++ itemsText config env term record [] after)

def lineText (before after items : List Item) : Bytes :=
  itemsText config env term record (attributesText config env term record before after) items

end Texts

/-- A colour is one that is known. -/
def Coloured : Item → Prop
  | .literal _ | .percent => True
  | .directive kind block =>
      isColour kind = true → ∀ spec, specOf kind block = some spec →
        ∃ rgb, parseColorSpec spec = .ok rgb

namespace Pattern

section Directives
variable {self : Pattern} {env : Env} {term : Terminal} {record : LogRecord}
  {formatPattern : ParsedPattern → Except Fault Bytes} {input rest attributes : Bytes} {a : Nat}
  {kind : SegmentKind} {block : Option Bytes} {item : Item} {items : List Item}

theorem spec_token (written : input.drop a = (Item.directive kind block).print ++ rest) :
    ((Item.directive kind block).token a).spec input = specOf kind block := by
  cases block with
  | none => rfl
  | some body =>
      have bound := specSize_le kind body
      have front : slice input (a + 1 + kind.name.length + 1)
          (a + 1 + kind.name.length + 1 + specSize kind body) =
            body.take (specSize kind body) := by
        have cut : slice input (a + 1 + kind.name.length + 1)
            (a + 1 + kind.name.length + 1 + specSize kind body) =
              (slice input (a + 1 + kind.name.length + 1)
                (a + 1 + kind.name.length + (body.length + 2) - 1)).take (specSize kind body) :=
          (take_slice _ (by omega)).symm
        rw [cut, body_written written]
      simp only [Item.token, Option.map_some, Token.spec, body_written written, front, specOf,
        Option.bind_some]

theorem padded_token (written : input.drop a = (Item.directive kind block).print ++ rest)
    (readable : (Item.directive kind block).Readable) (content : Bytes) :
    ParsedPattern.padded (((Item.directive kind block).token a).segment input 0) content =
      paddedBy kind block content := by
  cases block with
  | none => rfl
  | some body =>
      obtain ⟨d, parsed⟩ := readable.1 body rfl
      obtain ⟨o, moved⟩ := parse_offset (a + 1 + kind.name.length + 1) parsed
      have stored : (((Item.directive kind (some body)).token a).segment input 0).directive =
          some { d with specOffset := o } := by
        simp only [Item.token, Option.map_some, Token.segment, readDirective,
          body_written written, moved, toOption_ok, Option.getD_some]
      simp only [paddedBy, Option.bind_some, parsed, toOption_ok]
      by_cases aligned : d.hasPadding = true
      · exact padded_eq stored aligned content
      · have none : d.alignment = .none := by simpa [Directive.hasPadding] using aligned
        rw [ParsedPattern.padded, stored, none]
        simp [Directive.hasPadding, pad]

theorem specOf_ne_nil {text : Bytes} (h : specOf kind block = some text) : text ≠ [] := by
  obtain ⟨body, _, same⟩ := Option.bind_eq_some_iff.mp h
  split at same
  · next some =>
      cases same
      intro empty
      have size := congrArg List.length empty
      rw [List.length_take, List.length_nil] at size
      have bound := specSize_le kind body
      omega
  · cases same

theorem emitColour_text {segment : Segment} {spec : Option Bytes} (foreground : Bool)
    (same : segment.spec input = .ok spec)
    (valid : ∀ text, spec = some text → ∃ rgb, parseColorSpec text = .ok rgb) :
    self.emitColour term segment ⟨[], input⟩ foreground =
      .ok (styled self.config term (colourText term foreground spec)) := by
  simp only [emitColour, same, ok_bind, styled]
  split
  · cases spec with
    | none => rfl
    | some text =>
        obtain ⟨rgb, parsed⟩ := valid text rfl
        simp [colourText, parsed, unwrap]
  · rfl

theorem emitLevelColour_text {segment : Segment} {spec : Option Bytes}
    (same : segment.spec input = .ok spec)
    (valid : ∀ text, spec = some text → ∃ rgb, parseColorSpec text = .ok rgb) :
    self.emitLevelColour term segment ⟨[], input⟩ record =
      .ok (styled self.config term (levelColourText self.config term record spec)) := by
  simp only [emitLevelColour, levelColour, same, ok_bind, styled]
  split
  · cases spec with
    | none => rfl
    | some text =>
        obtain ⟨rgb, parsed⟩ := valid text rfl
        simp [levelColourText, parsed, unwrap]
  · rfl

/-- A token is rendered as the text its item stands for. -/
theorem renderToken_item (short : input.length ≤ 65535)
    (written : input.drop a = item.print ++ rest) (stands : item.Stands rest)
    (readable : item.Readable)
    (valid : validateColorSpec ⟨[], input⟩ ((item.token a).segment input 0) = .ok ())
    (loop : item.kind = .allAttributes →
      self.formatAllAttributes env formatPattern record = .ok attributes) :
    self.renderToken env term formatPattern record input (item.token a) =
      .ok (itemText self.config env term record attributes item) := by
  have lies : TokenAt input input.length a (a + item.print.length) (item.token a) :=
    (tokenAt_iff (by omega)).mpr ⟨item, rest, written, stands, rfl, rfl⟩
  have stored := (item.token a).stored ((readable_token_iff short written).mpr readable) 0
  cases item with
  | literal text =>
      have same : slice input a (a + text.length) = text := by
        have front : input.drop a = text ++ rest := written
        rw [slice_add, front, List.take_left]
      have shown := lies.text_eq short stored
      rw [Item.token, Token.text, same] at shown
      exact shown
  | percent => exact lies.text_eq short stored
  | directive kind block =>
      have spec := lies.spec_eq short stored
      rw [spec_token written] at spec
      have padded := padded_token written readable
      have colour (coloured : isColour kind = true) : ∀ text, specOf kind block = some text →
          ∃ rgb, parseColorSpec text = .ok rgb := fun text same =>
        validateColorSpec_spec valid coloured (spec.trans (congrArg _ same))
      clear stored lies valid written
      cases kind with
      | literal => exact absurd rfl stands.name.name_ne_nil
      | message | file | functionName | lineNum | columnNum => rfl
      | allAttributes => exact loop rfl
      | logger => exact congrArg _ (padded record.logger)
      | level =>
          have shown := padded (levelToString record.level ((specOf .level block).getD []))
          show ParsedPattern.formatLevel ⟨[], input⟩ _ record = _
          simp only [ParsedPattern.formatLevel, spec, ok_bind, shown]
          rfl
      | timestamp =>
          have format : (if ((specOf .timestamp block).getD []).isEmpty then
              str "%Y-%m-%d %H:%M:%S" else (specOf .timestamp block).getD []) =
                (specOf .timestamp block).getD (str "%Y-%m-%d %H:%M:%S") := by
            cases same : specOf .timestamp block with
            | none => rfl
            | some text =>
                have filled : text.isEmpty = false := by
                  simpa using specOf_ne_nil same
                simp [filled]
          show ParsedPattern.formatTimestamp ⟨[], input⟩ env _ record = _
          simp only [ParsedPattern.formatTimestamp, spec, ok_bind, format, itemText,
            directiveText, timeText]
          split <;> rfl
      | threadId =>
          show ParsedPattern.formatThreadId ⟨[], input⟩ env _ = _
          simp only [ParsedPattern.formatThreadId, spec, ok_bind, itemText, directiveText,
            threadText]
          split <;> rfl
      | «attribute» =>
          show formatAttribute env _ ⟨[], input⟩ record = _
          simp only [formatAttribute, spec, ok_bind, itemText, directiveText]
          cases specOf .attribute block with
          | none => rfl
          | some key => cases found : record.fields.lookup key <;> simp [fieldText, found]
      | foregroundColorStart => exact emitColour_text true spec (colour rfl)
      | backgroundColorStart => exact emitColour_text false spec (colour rfl)
      | levelColorStart => exact emitLevelColour_text spec (colour rfl)
      | bold | dim | italic | underline | strikethrough =>
          simp only [renderToken, Item.token, Token.segment, formatSegment, emitStyle, itemText,
            directiveText, styled]
          split <;> rfl
      | styleEnd =>
          show self.emitStyleEnd term = _
          simp only [emitStyleEnd, itemText, directiveText, styled]
          split <;> rfl

/-- The check of the colours looks at the blocks of the items. -/
theorem validateColorSpec_item (short : input.length ≤ 65535)
    (written : input.drop a = item.print ++ rest) (stands : item.Stands rest)
    (readable : item.Readable) :
    validateColorSpec ⟨[], input⟩ ((item.token a).segment input 0) = .ok () ↔ Coloured item := by
  have lies : TokenAt input input.length a (a + item.print.length) (item.token a) :=
    (tokenAt_iff (by omega)).mpr ⟨item, rest, written, stands, rfl, rfl⟩
  have stored := (item.token a).stored ((readable_token_iff short written).mpr readable) 0
  cases item with
  | literal | percent => exact iff_of_true rfl trivial
  | directive kind block =>
      have spec := lies.spec_eq short stored
      rw [spec_token written] at spec
      rw [validateColorSpec, Token.segment_kind]
      show (if isColour kind = true then _ else _) = _ ↔ _
      simp only [spec, raised, ok_bind, Coloured]
      split
      · next coloured =>
          cases same : specOf kind block with
          | none => simp [coloured]
          | some text =>
              cases parsed : parseColorSpec text with
              | error e =>
                  have refused : ¬ (Except.error (.returned e) >>= fun _ : RGB =>
                      (.ok () : Except ParseFailure Unit)) = .ok () := by
                    intro same
                    cases same
                  simpa [coloured, parsed, returned] using refused
              | ok rgb => simp [coloured, parsed, returned]
      · next plain => simp [plain]

theorem validateColorSpec_lay (short : input.length ≤ 65535) (written : input.drop a = print items)
    (stand : StandAll items) (readable : ∀ item ∈ items, item.Readable) :
    (∀ t ∈ lay a items, validateColorSpec ⟨[], input⟩ (t.segment input 0) = .ok ()) ↔
      ∀ item ∈ items, Coloured item := by
  induction items generalizing a with
  | nil => simp [lay]
  | cons item items ih =>
      have split : input.drop a = item.print ++ print items := written
      obtain ⟨first, others⟩ := List.forall_mem_cons.mp readable
      rw [lay, List.forall_mem_cons, List.forall_mem_cons,
        validateColorSpec_item short split stand.1 first,
        ih (drop_written split) stand.2 others]

/-- The tokens of items are rendered as what the items stand for, one after the other. -/
theorem concatM_lay (short : input.length ≤ 65535) (written : input.drop a = print items)
    (stand : StandAll items) (valid : ∀ item ∈ items, item.Readable ∧ Coloured item)
    (loop : (∃ item ∈ items, item.kind = .allAttributes) →
      self.formatAllAttributes env formatPattern record = .ok attributes) :
    concatM (self.renderToken env term formatPattern record input) (lay a items) =
      .ok (itemsText self.config env term record attributes items) := by
  induction items generalizing a with
  | nil => rfl
  | cons item items ih =>
      have split : input.drop a = item.print ++ print items := written
      obtain ⟨⟨readable, coloured⟩, others⟩ := List.forall_mem_cons.mp valid
      have here : self.renderToken env term formatPattern record input (item.token a) =
          .ok (itemText self.config env term record attributes item) :=
        renderToken_item short split stand.1 readable
          ((validateColorSpec_item short split stand.1 readable).mpr coloured)
          fun same => loop ⟨item, List.mem_cons_self, same⟩
      have later := ih (drop_written split) stand.2 others fun h =>
        loop (h.imp fun _ both => ⟨List.mem_cons_of_mem _ both.1, both.2⟩)
      exact concatM_cons_ok.mpr ⟨_, _, here, later, rfl⟩

end Directives

section Lines
variable {text input : Bytes} {config : Config} {parseConfig : ParseConfig} {items : List Item}

/-- Items that are accepted, with colours that are known. -/
def Valid (parseConfig : ParseConfig) (items : List Item) : Prop :=
  Accepted parseConfig items ∧ ∀ item ∈ items, Coloured item

theorem validateColorSpecs_lay (short : (print items).length ≤ 65535) (stand : StandAll items)
    (readable : ∀ item ∈ items, item.Readable) :
    validateColorSpecs ⟨segmentsFrom (print items) 0 (lay 0 items), print items⟩ = .ok () ↔
      ∀ item ∈ items, Coloured item := by
  rw [validateColorSpecs_segmentsFrom]
  exact validateColorSpec_lay short rfl stand readable

/-- A parsed text, rendered. -/
theorem formatPattern_items (short : text.length ≤ 65535) {parsed : ParsedPattern}
    (hparse : Logrin.Pattern.parse text parseConfig = .ok parsed)
    (valid : validateColorSpecs parsed = .ok ()) :
    ∃ items, ReadAs text items ∧ Valid parseConfig items ∧
      ∀ (self : Pattern) env term record depth attributes,
        ((∃ item ∈ items, item.kind = .allAttributes) →
          self.formatAllAttributes env (self.formatPattern env term record depth) record =
            .ok attributes) →
        self.formatPattern env term record (depth + 1) parsed =
          .ok (itemsText self.config env term record attributes items) := by
  obtain ⟨items, ⟨wellFormed, rfl⟩, accepted, rfl⟩ := items_of_parse short hparse
  have coloured := (validateColorSpecs_lay short wellFormed.stand accepted.readable).mp valid
  refine ⟨items, ⟨wellFormed, rfl⟩, ⟨accepted, coloured⟩, ?_⟩
  intro self env term record depth attributes loop
  rw [formatPattern_segmentsFrom]
  exact concatM_lay short rfl wellFormed.stand
    (fun item member => ⟨accepted.readable item member, coloured item member⟩) loop

/-- A marker, rendered; the empty one has nothing to render. -/
theorem formatMarker_items {label : String} {marker : Option ParsedPattern}
    (short : text.length ≤ 65535) (hmarker : parseMarker label text = .ok marker) :
    ∃ items, ReadAs text items ∧ Valid markerParseConfig items ∧
      ∀ (self : Pattern) env term record depth,
        formatMarker (self.formatPattern env term record (depth + 1)) marker text =
          .ok (itemsText self.config env term record [] items) := by
  simp only [parseMarker] at hmarker
  split at hmarker
  · next empty =>
      obtain rfl := List.isEmpty_iff.mp empty
      cases hmarker
      refine ⟨[], ⟨⟨trivial, .nil⟩, rfl⟩, ⟨⟨Nat.zero_le 64, ?_, ?_, .inl rfl⟩, ?_⟩, ?_⟩
      · simp
      · simp
      · simp
      · exact fun _ _ _ _ _ => rfl
  · split at hmarker
    · cases hmarker
    · next parsed hparse =>
        obtain ⟨_, checked, same⟩ := bind_eq_ok.mp hmarker
        cases same
        obtain ⟨items, reads, valid, renders⟩ := formatPattern_items short hparse checked
        refine ⟨items, reads, valid, fun self env term record depth => ?_⟩
        apply renders self env term record depth []
        intro h
        obtain ⟨item, member, attributes⟩ := h
        have allowed_ := valid.1.permitted item member
        cases item with
        | literal | percent => cases attributes
        | directive kind block =>
            obtain rfl : kind = .allAttributes := attributes
            have refused : allowed markerParseConfig .allAttributes = false := by decide
            rw [Item.Permitted, refused] at allowed_
            cases allowed_

theorem parse_valid (short : text.length ≤ 65535) (reads : ReadAs text items)
    (valid : Valid parseConfig items) :
    ∃ parsed, Logrin.Pattern.parse text parseConfig = .ok parsed ∧
      validateColorSpecs parsed = .ok () := by
  obtain ⟨wellFormed, rfl⟩ := reads
  obtain ⟨accepted, coloured⟩ := valid
  exact ⟨_, (parse_print short wellFormed).mpr ⟨accepted, rfl⟩,
    (validateColorSpecs_lay short wellFormed.stand accepted.readable).mpr coloured⟩

/-- The readings of a pattern and of the markers it is configured with. -/
structure Denotes (input : Bytes) (config : Config) (before after items : List Item) : Prop where
  text : ReadAs input items
  markers : ReadAs config.markers.1 before ∧ ReadAs config.markers.2 after
  valid : Valid { } items
  validMarkers : Valid markerParseConfig before ∧ Valid markerParseConfig after

section Denotes
variable {self : Pattern} {before after : List Item} (short : input.length ≤ 65535)
  (shortMarkers : config.markers.1.length ≤ 65535 ∧ config.markers.2.length ≤ 65535)
include short shortMarkers

theorem denotes_of_parse (h : parse input config = .ok self) :
    ∃ before after items, Denotes input config before after items ∧ ∀ env term record,
      self.format env term record = .ok (lineText config env term record before after items) := by
  obtain ⟨hparse, checked, hbefore, hafter, rfl⟩ := parse_eq_ok.mp h
  obtain ⟨before, readsBefore, validBefore, left⟩ := formatMarker_items shortMarkers.1 hbefore
  obtain ⟨after, readsAfter, validAfter, right⟩ := formatMarker_items shortMarkers.2 hafter
  obtain ⟨items, reads, valid, renders⟩ := formatPattern_items short hparse checked
  refine ⟨before, after, items,
    ⟨reads, ⟨readsBefore, readsAfter⟩, valid, ⟨validBefore, validAfter⟩⟩, ?_⟩
  intro env term record
  apply renders self env term record 1
  intro _
  exact formatFields_join (left self env term record 0) (right self env term record 0) true _

end Denotes

end Lines

end Pattern

end Logrin.Formatter
