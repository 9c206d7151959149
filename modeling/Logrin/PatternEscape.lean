import Logrin.PatternMeaning

/-!
Text that is to appear as it is: with every `%` doubled it is read as literals and `%%`s only.
-/

namespace Logrin.Formatter.Pattern
open Logrin.Library
open Logrin.Pattern

variable {c : UInt8} {text : Bytes} {items : List Item}

/-- The text with every `%` doubled. -/
def escape (text : Bytes) : Bytes :=
  text.flatMap fun c => if c = ch '%' then [ch '%', ch '%'] else [c]

/-- A byte of text before items. -/
def consByte (c : UInt8) : List Item → List Item
  | .literal run :: items => .literal (c :: run) :: items
  | items => .literal [c] :: items

/-- The items of an escaped text: each `%`, and the runs of other bytes. -/
def escapeItems : Bytes → List Item
  | [] => []
  | c :: text => if c = ch '%' then .percent :: escapeItems text else consByte c (escapeItems text)

/-- Text as it is: no directives, and no `%` in a literal. -/
def Plain : Item → Prop
  | .literal text => text ≠ [] ∧ ch '%' ∉ text
  | .percent => True
  | .directive _ _ => False

theorem consByte_flatMap {f : Item → Bytes} (literal : ∀ text, f (.literal text) = text)
    (c : UInt8) (items : List Item) :
    (consByte c items).flatMap f = c :: items.flatMap f := by
  cases items with
  | nil => simp [consByte, literal]
  | cons item items =>
      cases item with
      | literal | percent | directive => simp [consByte, literal]

/-- The items of an escaped text say the text where `%%` says `%`. -/
theorem escapeItems_flatMap {f : Item → Bytes} (literal : ∀ text, f (.literal text) = text)
    (text : Bytes) :
    (escapeItems text).flatMap f =
      text.flatMap fun c => if c = ch '%' then f .percent else [c] := by
  induction text with
  | nil => rfl
  | cons c text ih =>
      rw [escapeItems, List.flatMap_cons]
      split
      · rw [List.flatMap_cons, ih]
      · rw [consByte_flatMap literal, ih, List.singleton_append]

theorem print_escapeItems (text : Bytes) : print (escapeItems text) = escape text :=
  escapeItems_flatMap (fun _ => rfl) text

theorem itemsText_escapeItems (config : Config) (env : Env) (term : Terminal)
    (record : LogRecord) (attributes text : Bytes) :
    itemsText config env term record attributes (escapeItems text) = text := by
  have same : ∀ c : UInt8, (if c = ch '%' then [ch '%'] else [c]) = [c] := by
    intro c
    split
    · next percent => rw [percent]
    · rfl
  have joined := escapeItems_flatMap (f := itemText config env term record attributes)
    (fun _ => rfl) text
  simp only [itemText, same, List.flatMap_singleton'] at joined
  exact joined

theorem plain_consByte (other : c ≠ ch '%') (h : ∀ item ∈ items, Plain item) :
    ∀ item ∈ consByte c items, Plain item := by
  have single : Plain (.literal [c]) := by simp [Plain, Ne.symm other]
  cases items with
  | nil => simpa [consByte] using single
  | cons item items =>
      obtain ⟨first, others⟩ := List.forall_mem_cons.mp h
      cases item with
      | literal run =>
          have longer : Plain (.literal (c :: run)) := by
            simp [Plain, Ne.symm other, first.2]
          exact List.forall_mem_cons.mpr ⟨longer, others⟩
      | percent | directive => exact List.forall_mem_cons.mpr ⟨single, h⟩

theorem plain_escapeItems (text : Bytes) : ∀ item ∈ escapeItems text, Plain item := by
  induction text with
  | nil => simp [escapeItems]
  | cons c text ih =>
      rw [escapeItems]
      split
      · exact List.forall_mem_cons.mpr ⟨trivial, ih⟩
      · next other => exact plain_consByte other ih

theorem apart_escapeItems (text : Bytes) :
    (escapeItems text).IsChain fun x y => ¬ (x.isLiteral ∧ y.isLiteral) := by
  induction text with
  | nil => exact .nil
  | cons c text ih =>
      rw [escapeItems]
      split
      · exact List.isChain_cons.mpr ⟨by simp [Item.isLiteral], ih⟩
      · cases items : escapeItems text with
        | nil => exact List.isChain_singleton _
        | cons item items =>
            rw [items] at ih
            cases item with
            | literal run => exact List.isChain_cons.mpr (List.isChain_cons.mp ih)
            | percent | directive =>
                exact List.isChain_cons.mpr ⟨by simp [Item.isLiteral], ih⟩

theorem standAll_of_plain (plain : ∀ item ∈ items, Plain item) : StandAll items := by
  induction items with
  | nil => trivial
  | cons item items ih =>
      obtain ⟨first, others⟩ := List.forall_mem_cons.mp plain
      refine ⟨?_, ih others⟩
      cases item with
      | literal text =>
          refine ⟨first.1, fun j inside percent => absurd ?_ first.2⟩
          rw [← percent, List.getD_eq_getElem?_getD, List.getElem?_eq_getElem inside]
          exact List.getElem_mem inside
      | percent => trivial
      | directive => cases first

theorem reads_escape (text : Bytes) : ReadAs (escape text) (escapeItems text) :=
  ⟨⟨standAll_of_plain (plain_escapeItems text), apart_escapeItems text⟩, print_escapeItems text⟩

theorem kind_of_plain {item : Item} (h : Plain item) : item.kind = .literal := by
  cases item with
  | literal | percent => rfl
  | directive => cases h

theorem valid_of_plain {parseConfig : ParseConfig} (plain : ∀ item ∈ items, Plain item)
    (few : items.length ≤ 64) : Valid parseConfig items := by
  have each : ∀ item ∈ items, item.Readable ∧ item.Permitted parseConfig ∧ Coloured item := by
    intro item member
    have kind := plain item member
    cases item with
    | literal | percent => exact ⟨trivial, trivial, trivial⟩
    | directive => cases kind
  have kinds : items.map Item.kind = List.replicate items.length .literal := by
    refine List.eq_replicate_iff.mpr ⟨List.length_map _, fun kind member => ?_⟩
    obtain ⟨item, inside, rfl⟩ := List.mem_map.mp member
    exact kind_of_plain (plain item inside)
  have balanced : BalancedStyles (items.map Item.kind) := by
    rw [kinds]
    refine ⟨fun before after whole => ?_, by
      simp [difference, List.countP_replicate, List.count_replicate, isStyleStart]⟩
    have member : SegmentKind.styleEnd ∈ List.replicate items.length SegmentKind.literal := by
      rw [whole]
      exact List.mem_append_right _ List.mem_cons_self
    cases List.eq_of_mem_replicate member
  exact ⟨⟨few, fun item member => (each item member).1,
    fun item member => (each item member).2.1, .inr balanced⟩,
    fun item member => (each item member).2.2⟩

/-- Any text can be put into a pattern: escaped, it is accepted if it has no more than 64 runs
and `%`s, and stands for itself in every record's line. -/
theorem escaped_text_verbatim (short : (escape text).length ≤ 65535) :
    ((∃ self, parse (escape text) { } = .ok self) ↔ (escapeItems text).length ≤ 64) ∧
      ∀ config self, parse (escape text) config = .ok self → ∀ env term record,
        self.format env term record = .ok text := by
  constructor
  · constructor
    · intro h
      obtain ⟨self, parsed⟩ := h
      obtain ⟨hparse, _⟩ := parsed_of_parse parsed
      obtain ⟨items, reads, accepted, _⟩ := items_of_parse short hparse
      rw [reads.unique (by omega) (reads_escape text)] at accepted
      exact accepted.few
    · intro few
      obtain ⟨parsed, hparse, checked⟩ := @parse_valid _ { } _ short
        (reads_escape text) (valid_of_plain (plain_escapeItems text) few)
      obtain ⟨left, hbefore, _⟩ : ∃ marker, parseMarker "in marker prefix: " (str "[") =
          .ok marker ∧ true = true := ok_of_any (by decide +kernel)
      obtain ⟨right, hafter, _⟩ : ∃ marker, parseMarker "in marker suffix: " (str "]") =
          .ok marker ∧ true = true := ok_of_any (by decide +kernel)
      exact ⟨⟨parsed, { }, left, right⟩,
        parse_eq_ok.mpr ⟨hparse, checked, hbefore, hafter, rfl⟩⟩
  · intro config self h env term record
    obtain ⟨hparse, checked, _⟩ := parse_eq_ok.mp h
    obtain ⟨items, reads, _, renders⟩ := formatPattern_items short hparse checked
    obtain rfl := reads.unique (by omega) (reads_escape text)
    rw [format, renders self env term record 1 [], itemsText_escapeItems]
    intro attributes
    obtain ⟨item, member, kind⟩ := attributes
    rw [kind_of_plain (plain_escapeItems text item member)] at kind
    cases kind

theorem escaped_text_verbatim_sample :
    ∃ self, parse (escape (str "50%A")) { } = .ok self ∧
      ∀ env term record, self.format env term record = .ok (str "50%A") := by
  have verbatim := @escaped_text_verbatim (str "50%A") (by decide +kernel)
  obtain ⟨self, hself⟩ := verbatim.1.mpr (by decide +kernel)
  exact ⟨self, hself, verbatim.2 { } self hself⟩

end Logrin.Formatter.Pattern
