import Logrin.Json
import Logrin.PatternMeaning
import Logrin.PatternStyling
import Logrin.PatternTimestamp

/-!
Well-formed UTF-8 in, well-formed UTF-8 out: a text is cut only at bytes that are ASCII, and a
fill is a byte that an ASCII byte follows, so no character is torn.
-/

namespace Logrin.Pattern
open Logrin.Library

variable {kind : SegmentKind} {body : Bytes} {d : Directive} {item : Item} {items : List Item}

theorem isUtf8_decimal (n : Nat) : IsUtf8 (decimal n) := by
  apply isUtf8_of_ascii
  intro c member
  have bound : ∀ c : UInt8, c ≤ ch '9' → c < 128 := by
    apply forall_byte
    decide +kernel
  exact bound c (digits_decimal n c member).2

theorem isUtf8_hexadecimal (n : Nat) : IsUtf8 (hexadecimal n) := by
  apply isUtf8_of_ascii
  have digit : ∀ k < 16, ch (Nat.digitChar k) < 128 := by decide +kernel
  induction n using Nat.strongRecOn with
  | ind n ih =>
      rw [hexadecimal, Nat.toDigits_eq_if (by decide)]
      split
      · next small => simpa using digit n small
      · next large =>
          rw [List.map_append, List.forall_mem_append]
          refine ⟨ih (n / 16) (by omega), ?_⟩
          simpa using digit (n % 16) (Nat.mod_lt n (by decide))

theorem isUtf8_decimalInt (n : Int) : IsUtf8 (decimalInt n) := by
  rw [decimalInt]
  split
  · exact (isUtf8_cons (by decide)).mpr (isUtf8_decimal _)
  · exact isUtf8_decimal _

theorem isUtf8_cString {s : Bytes} (h : IsUtf8 s) : IsUtf8 (cString s) := by
  have split : cString s ++ s.dropWhile (fun c => c != 0) = s := List.takeWhile_append_dropWhile
  have stop := List.head?_dropWhile_not (fun c : UInt8 => c != 0) s
  cases rest : s.dropWhile (fun c => c != 0) with
  | nil =>
      rw [rest, List.append_nil] at split
      rwa [split]
  | cons c rest' =>
      simp only [rest, List.head?_cons, bne_eq_false_iff_eq] at stop
      subst stop
      rw [← split, rest, isUtf8_append_cons (by decide)] at h
      exact h.1

theorem rfind_split {c : UInt8} {s : Bytes} {i : Nat} (h : rfind c s = some i) :
    s = s.take i ++ c :: s.drop (i + 1) := by
  induction s generalizing i with
  | nil => cases h
  | cons b s ih =>
      simp only [rfind] at h
      cases hs : rfind c s with
      | none =>
          simp only [hs, Option.ite_none_right_eq_some, Option.some.injEq] at h
          obtain ⟨rfl, rfl⟩ := h
          rfl
      | some j =>
          simp only [hs, Option.some.injEq] at h
          subst h
          exact congrArg (b :: ·) (ih hs)

/-- The fill of a padding that is read off well-formed text is a character. -/
theorem parsePadding_fill {s : Bytes} {start : Directive} (h : IsUtf8 s)
    (ascii : start.fill < 128) (parsed : parsePadding s start = .ok d) : d.fill < 128 := by
  have head : (parseAlignment s start).1.fill < 128 := by
    simp only [parseAlignment]
    split
    · next second =>
        simp only [Bool.and_eq_true, decide_eq_true_eq] at second
        obtain ⟨long, aligned⟩ := second
        cases s with
        | nil => simp at long
        | cons c s =>
            cases s with
            | nil => simp at long
            | cons a s =>
                have low : a < 128 := by
                  have bound : ∀ a, isAlignmentCharacter a = true → a < 128 := by
                    apply forall_byte
                    decide +kernel
                  exact bound a aligned
                exact ascii_of_isUtf8 ((isUtf8_append_cons (s := [c]) low).mp h).1
    · split
      · exact ascii
      · split
        · exact (by decide : ch '0' < 128)
        · exact ascii
  simp only [parsePadding] at parsed
  split at parsed
  · cases parsed
    exact ascii
  · obtain ⟨⟨width, hasDigits⟩, _, parsed⟩ := bind_eq_ok.mp parsed
    simp only at parsed
    split at parsed
    · cases parsed
    · split at parsed
      · cases parsed
        exact head
      · cases parsed
        exact head

theorem parse_fill {offset : Nat} (h : IsUtf8 body)
    (parsed : Directive.parse body offset kind = .ok d) : d.fill < 128 := by
  have blank : ∀ o l, ({ specOffset := o, specLength := l } : Directive).fill < 128 :=
    fun _ _ => (by decide : ch ' ' < 128)
  simp only [Directive.parse] at parsed
  split at parsed
  · cases parsed
  · split at parsed
    · cases parsed
      exact blank 0 0
    · split at parsed
      · cases parsed
        exact blank _ _
      · split at parsed
        · cases parsed
        · exact parsePadding_fill h (blank 0 0) parsed
      · split at parsed
        · split at parsed
          · exact parsePadding_fill h (blank 0 0) parsed
          · cases parsed
            exact blank _ _
        · next colon found =>
            rw [rfind_split found, isUtf8_append_cons (by decide)] at h
            refine parsePadding_fill h.2 ?_ parsed
            split <;> exact blank _ _

def Item.Utf8 : Item → Prop
  | .literal text => IsUtf8 text
  | .percent => True
  | .directive _ block => ∀ body ∈ block, IsUtf8 body

theorem print_of_not_literal (h : item.isLiteral = false) : ∃ s, item.print = ch '%' :: s := by
  cases item with
  | literal => cases h
  | percent => exact ⟨_, rfl⟩
  | directive kind block => exact ⟨_, rfl⟩

theorem name_ascii (kind : SegmentKind) : ∀ c ∈ kind.name, c < 128 := by
  have all : kind.name.all (fun c => c < 128) = true := by cases kind <;> decide +kernel
  simpa using all

/-- Items written as well-formed text hold well-formed texts. -/
theorem utf8_of_print (apart : items.IsChain fun x y => ¬ (x.isLiteral ∧ y.isLiteral))
    (h : IsUtf8 (print items)) : ∀ item ∈ items, item.Utf8 := by
  have percent : (ch '%') < 128 := by decide
  induction items with
  | nil => simp
  | cons item items ih =>
      have written : print (item :: items) = item.print ++ print items := rfl
      rw [written] at h
      obtain ⟨next, apart⟩ := List.isChain_cons.mp apart
      have both : item.Utf8 ∧ IsUtf8 (print items) := by
        cases item with
        | literal text =>
            cases items with
            | nil => exact ⟨by simpa [print, Item.print, Item.Utf8] using h, isUtf8_nil⟩
            | cons after items =>
                have other : after.isLiteral = false := by
                  simpa [Item.isLiteral] using next after rfl
                obtain ⟨s, begins⟩ := print_of_not_literal other
                have rest : print (after :: items) = ch '%' :: (s ++ print items) := by
                  simp [print, begins]
                rw [rest] at h ⊢
                obtain ⟨text_, s_⟩ := (isUtf8_append_cons percent).mp h
                exact ⟨text_, (isUtf8_cons percent).mpr s_⟩
        | percent =>
            exact ⟨trivial, (isUtf8_cons percent).mp ((isUtf8_cons percent).mp h)⟩
        | directive kind block =>
            have split : (Item.directive kind block).print ++ print items =
                ch '%' :: (kind.name ++ (printBlock block ++ print items)) := by
              simp [Item.print]
            rw [split, isUtf8_cons percent, isUtf8_ascii_append (name_ascii kind)] at h
            cases block with
            | none => exact ⟨by simp [Item.Utf8], h⟩
            | some body =>
                have block : printBlock (some body) ++ print items =
                    ch '{' :: (body ++ ch '}' :: print items) := by simp [printBlock]
                rw [block, isUtf8_cons (by decide), isUtf8_append_cons (by decide)] at h
                exact ⟨by simpa [Item.Utf8] using h.1, h.2⟩
      exact List.forall_mem_cons.mpr ⟨both.1, ih apart both.2⟩

end Logrin.Pattern

namespace Logrin.Formatter
open Logrin.Library
open Logrin.Pattern

/-- What the platform and the terminal compute is well formed. -/
structure Utf8Platform (env : Env) (term : Terminal) : Prop where
  time : ∀ format tm, IsUtf8 format → IsUtf8 (env.expandTime format tm)
  double : ∀ value, IsUtf8 (env.formatDouble value)
  paint : ∀ foreground rgb, IsUtf8 (term.paint foreground rgb)
  paintStyle : ∀ style, IsUtf8 (term.paintStyle style)

/-- The texts of a record that a pattern can show are well formed. -/
structure Utf8Record (record : LogRecord) : Prop where
  message : IsUtf8 record.message
  logger : IsUtf8 record.logger
  file : IsUtf8 record.location.file
  function : IsUtf8 record.location.function
  name : ∀ field ∈ record.fields.entries, IsUtf8 field.1
  value : ∀ field ∈ record.fields.entries, ∀ text, field.2 = .string text → IsUtf8 text

section Texts
variable {config : Config} {env : Env} {term : Terminal} {record : LogRecord}
  {attributes : Bytes} {kind : SegmentKind} {block : Option Bytes} {item : Item}
  {items before after : List Item}

theorem isUtf8_specOf (h : ∀ body ∈ block, IsUtf8 body) :
    ∀ spec, specOf kind block = some spec → IsUtf8 spec := by
  intro spec same
  obtain ⟨body, member, same⟩ := Option.bind_eq_some_iff.mp same
  have whole := h body member
  split at same
  · cases same
    simp only [specSize]
    split
    · rwa [List.take_length]
    · split
      · next found => exact ((isUtf8_append_cons (by decide)).mp (rfind_split found ▸ whole)).1
      · split
        · exact isUtf8_nil
        · rwa [List.take_length]
    · exact isUtf8_nil
    · exact isUtf8_nil
  · cases same

theorem isUtf8_pad {alignment : Logrin.Pattern.Alignment} {width : Nat} {fill : UInt8}
    {content : Bytes} (ascii : fill < 128) (inner : IsUtf8 content) :
    IsUtf8 (pad alignment width fill content) := by
  have fills : ∀ n, IsUtf8 (List.replicate n fill) := fun n =>
    isUtf8_of_ascii fun c member => List.eq_of_mem_replicate member ▸ ascii
  cases alignment with
  | none => exact inner
  | left => exact inner.append (fills _)
  | right => exact (fills _).append inner
  | center => exact ((fills _).append inner).append (fills _)

theorem isUtf8_paddedBy (h : ∀ body ∈ block, IsUtf8 body) {content : Bytes}
    (inner : IsUtf8 content) : IsUtf8 (paddedBy kind block content) := by
  rw [paddedBy]
  split
  · next d found =>
      obtain ⟨body, member, parsed⟩ := Option.bind_eq_some_iff.mp found
      exact isUtf8_pad (parse_fill (h body member) (toOption_eq_some.mp parsed)) inner
  · exact inner

theorem isUtf8_level (level : LogLevel) (spec : Bytes) : IsUtf8 (levelToString level spec) := by
  have all : level.toString.all (fun c => c < 128 ∧ toUpper c < 128 ∧ toLower c < 128) = true := by
    cases level <;> decide +kernel
  have ascii : ∀ c ∈ level.toString, c < 128 ∧ toUpper c < 128 ∧ toLower c < 128 := by
    simpa using all
  rw [levelToString]
  split
  · exact isUtf8_of_ascii (List.forall_mem_map.mpr fun c member => (ascii c member).2.1)
  · split
    · exact isUtf8_of_ascii (List.forall_mem_map.mpr fun c member => (ascii c member).2.2)
    · exact isUtf8_of_ascii fun c member => (ascii c member).1

theorem isUtf8_value (platform : Utf8Platform env term) (value : AttributeValue)
    (h : ∀ text, value = .string text → IsUtf8 text) : IsUtf8 (appendAttributeValue env value) := by
  cases value with
  | mono => exact isUtf8_nil
  | bool value => cases value <;> exact isUtf8_str _
  | int64 value => exact isUtf8_decimalInt _
  | uint64 value => exact isUtf8_decimal _
  | double value => exact platform.double value
  | string value => exact h value rfl

theorem isUtf8_time (platform : Utf8Platform env term) {format : Bytes} (h : IsUtf8 format) :
    IsUtf8 (timeText env record format) := by
  have buffer : ∀ max format tm, IsUtf8 format → IsUtf8 (env.strftime max format tm) := by
    intro max format tm whole
    rw [Env.strftime]
    split
    · exact platform.time _ tm (isUtf8_cString whole)
    · exact isUtf8_nil
  rw [timeText]
  split
  · exact buffer _ _ _ (isUtf8_str _)
  · exact buffer _ _ _ h

theorem isUtf8_styled {text : Bytes} (h : IsUtf8 text) : IsUtf8 (styled config term text) := by
  rw [styled]
  split
  · exact h
  · exact isUtf8_nil

theorem isUtf8_fieldText (platform : Utf8Platform env term) (shown : Utf8Record record)
    (key : Bytes) : IsUtf8 (fieldText env record key) := by
  rw [fieldText]
  cases found : record.fields.lookup key with
  | none => exact isUtf8_nil
  | some value =>
      have member := AList.mem_lookup_iff.mp found
      exact isUtf8_value platform value fun text same => shown.value _ member text same

theorem isUtf8_itemText (platform : Utf8Platform env term) (shown : Utf8Record record)
    (attributes_ : IsUtf8 attributes) (h : item.Utf8) :
    IsUtf8 (itemText config env term record attributes item) := by
  cases item with
  | literal text => exact h
  | percent => exact (isUtf8_cons (by decide)).mpr isUtf8_nil
  | directive kind block =>
      have spec := @isUtf8_specOf kind _ h
      have colour : ∀ foreground, IsUtf8 (colourText term foreground (specOf kind block)) := by
        intro foreground
        rw [colourText]
        cases (specOf kind block).bind fun spec => (parseColorSpec spec).toOption with
        | none => exact isUtf8_nil
        | some rgb => exact platform.paint foreground rgb
      cases kind with
      | literal => exact isUtf8_nil
      | timestamp =>
          apply isUtf8_time platform
          cases same : specOf .timestamp block with
          | none => exact isUtf8_str _
          | some format => exact spec format same
      | level => exact isUtf8_paddedBy h (isUtf8_level _ _)
      | message => exact shown.message
      | logger => exact isUtf8_paddedBy h shown.logger
      | file => exact shown.file
      | functionName => exact shown.function
      | lineNum | columnNum => exact isUtf8_decimal _
      | threadId =>
          simp only [itemText, directiveText, threadText]
          split
          · exact (isUtf8_str _).append (isUtf8_hexadecimal _)
          · exact isUtf8_decimal _
      | allAttributes => exact attributes_
      | «attribute» =>
          simp only [itemText, directiveText]
          cases specOf .attribute block with
          | none => exact isUtf8_nil
          | some key => exact isUtf8_fieldText platform shown key
      | foregroundColorStart | backgroundColorStart => exact isUtf8_styled (colour _)
      | levelColorStart => exact isUtf8_styled (platform.paint _ _)
      | bold | dim | italic | underline | strikethrough | styleEnd =>
          exact isUtf8_styled (platform.paintStyle _)

theorem isUtf8_itemsText (platform : Utf8Platform env term) (shown : Utf8Record record)
    (attributes_ : IsUtf8 attributes) (h : ∀ item ∈ items, item.Utf8) :
    IsUtf8 (itemsText config env term record attributes items) :=
  isUtf8_flatMap fun item member => isUtf8_itemText platform shown attributes_ (h item member)

theorem isUtf8_attributesText (platform : Utf8Platform env term) (shown : Utf8Record record)
    (delimiter : IsUtf8 config.delimiter) (hbefore : ∀ item ∈ before, item.Utf8)
    (hafter : ∀ item ∈ after, item.Utf8) :
    IsUtf8 (attributesText config env term record before after) := by
  have marker {items : List Item} (h : ∀ item ∈ items, item.Utf8) :
      IsUtf8 (itemsText config env term record [] items) :=
    isUtf8_itemsText platform shown isUtf8_nil h
  apply isUtf8_intercalate (isUtf8_str " ")
  intro text member
  obtain ⟨field, inside, rfl⟩ := List.mem_map.mp member
  have value := isUtf8_value platform field.2 (shown.value field inside)
  exact ((((marker hbefore).append (shown.name field inside)).append delimiter).append value).append
    (marker hafter)

end Texts

namespace Pattern
variable {input : Bytes} {config : Config} {self : Pattern} {env : Env} {term : Terminal}
  {record : LogRecord}

/-- A pattern of well-formed texts renders well-formed records as well-formed lines: whatever is
cut, padded or looked up, no character is torn. -/
theorem format_utf8 (h : parse input config = .ok self) (short : input.length ≤ 65535)
    (shortMarkers : config.markers.1.length ≤ 65535 ∧ config.markers.2.length ≤ 65535)
    (text : IsUtf8 input) (markers : IsUtf8 config.markers.1 ∧ IsUtf8 config.markers.2)
    (delimiter : IsUtf8 config.delimiter) (platform : Utf8Platform env term)
    (shown : Utf8Record record) :
    ∃ line, self.format env term record = .ok line ∧ IsUtf8 line := by
  obtain ⟨before, after, items, denotes, renders⟩ := denotes_of_parse short shortMarkers h
  have utf8 {text : Bytes} {items : List Item} (reads : ReadAs text items) (whole : IsUtf8 text) :
      ∀ item ∈ items, item.Utf8 := by
    obtain ⟨wellFormed, rfl⟩ := reads
    exact utf8_of_print wellFormed.apart whole
  refine ⟨_, renders env term record, isUtf8_itemsText platform shown ?_ (utf8 denotes.text text)⟩
  exact isUtf8_attributesText platform shown delimiter (utf8 denotes.markers.1 markers.1)
    (utf8 denotes.markers.2 markers.2)

theorem isUtf8_escape : IsUtf8 [27, 91] :=
  (isUtf8_cons (by decide)).mpr ((isUtf8_cons (by decide)).mpr isUtf8_nil)

theorem isUtf8_digits (n : UInt8) : IsUtf8 (digits n) := by
  have all : ∀ n, (digits n).all (fun c => c < 128) = true := by
    apply forall_byte
    decide +kernel
  exact isUtf8_of_ascii (by simpa using all n)

theorem isUtf8_ite {p : Prop} [Decidable p] {s t : Bytes} (hs : IsUtf8 s) (ht : IsUtf8 t) :
    IsUtf8 (if p then s else t) := by
  split
  · exact hs
  · exact ht

theorem ansi_utf8 : Utf8Platform copyPlatform ansi where
  time _ _ whole := whole
  double _ := isUtf8_nil
  paint foreground rgb := by
    simp only [ansi]
    refine IsUtf8.append ?_ (isUtf8_str _)
    refine IsUtf8.append ?_ (isUtf8_digits _)
    refine IsUtf8.append ?_ (isUtf8_str _)
    refine IsUtf8.append ?_ (isUtf8_digits _)
    refine IsUtf8.append ?_ (isUtf8_str _)
    refine IsUtf8.append ?_ (isUtf8_digits _)
    exact (isUtf8_escape.append (isUtf8_str _)).append (isUtf8_str _)
  paintStyle style := by
    have code : ∀ (on : Bool) (s : String), ∀ text ∈ if on then [str s] else [], IsUtf8 text := by
      intro on s text member
      cases on with
      | false => exact nomatch member
      | true => exact List.mem_singleton.mp member ▸ isUtf8_str s
    simp only [ansi]
    refine IsUtf8.append (isUtf8_escape.append ?_) (isUtf8_str _)
    refine isUtf8_ite (isUtf8_str _) (isUtf8_intercalate (isUtf8_str ";") ?_)
    intro text member
    simp only [List.mem_append] at member
    obtain (((member | member) | member) | member) | member := member
    all_goals exact code _ _ text member

theorem format_utf8_sample :
    ∃ self, parse (str "%n\x7b*<9\x7d é %bold%m%style:end") { delimiter := str "→" } = .ok self ∧
      ∃ line, self.format copyPlatform ansi LogRecord.default = .ok line ∧ IsUtf8 line := by
  obtain ⟨self, hself, _⟩ : ∃ self, parse (str "%n\x7b*<9\x7d é %bold%m%style:end")
      { delimiter := str "→" } = .ok self ∧ true = true := ok_of_any (by decide +kernel)
  have shown : Utf8Record LogRecord.default :=
    { message := isUtf8_nil
      logger := isUtf8_nil
      file := isUtf8_nil
      function := isUtf8_nil
      name := fun _ member => nomatch member
      value := fun _ member => nomatch member }
  exact ⟨self, hself, format_utf8 hself (by decide +kernel) ⟨by decide, by decide⟩ (isUtf8_str _)
    ⟨isUtf8_str _, isUtf8_str _⟩ (isUtf8_str _) ansi_utf8 shown⟩

end Pattern
end Logrin.Formatter
