import Logrin.Library.Digits
import Logrin.Library.Loop
import Logrin.PatternColor
import Mathlib.Data.List.DropRight
import Mathlib.Data.List.TakeWhile

/-!
The grammar of colour specifications and what `parseColorSpec` accepts besides it: three
components with a comma after the third.
-/

namespace Logrin.Pattern
open Logrin.Library

def hexDigitValue (c : UInt8) : Option Nat :=
  (str "0123456789abcdef").idxOf? (toLowerAscii c)

def Blanks (s : Bytes) : Prop := ∀ c ∈ s, isBlank c = true

/-- A run of digits with blanks around it. -/
def Component (text digits : Bytes) : Prop :=
  ∃ before after, Blanks before ∧ Blanks after ∧ digits ≠ [] ∧ Digits digits ∧
    text = before ++ digits ++ after

/-- The texts of colour specifications, without the blanks at both ends. -/
inductive InGrammar : Bytes → Prop
  | short {r g b : UInt8} {x y z : Nat} (hr : hexDigitValue r = some x)
      (hg : hexDigitValue g = some y) (hb : hexDigitValue b = some z) :
      InGrammar [ch '#', r, g, b]
  | long {r₁ r₀ g₁ g₀ b₁ b₀ : UInt8} {x₁ x₀ y₁ y₀ z₁ z₀ : Nat}
      (hr₁ : hexDigitValue r₁ = some x₁) (hr₀ : hexDigitValue r₀ = some x₀)
      (hg₁ : hexDigitValue g₁ = some y₁) (hg₀ : hexDigitValue g₀ = some y₀)
      (hb₁ : hexDigitValue b₁ = some z₁) (hb₀ : hexDigitValue b₀ = some z₀) :
      InGrammar [ch '#', r₁, r₀, g₁, g₀, b₁, b₀]
  | components {t₁ t₂ t₃ d₁ d₂ d₃ : Bytes} (h₁ : Component t₁ d₁) (h₂ : Component t₂ d₂)
      (h₃ : Component t₃ d₃) : InGrammar (t₁ ++ ch ',' :: (t₂ ++ ch ',' :: t₃))
  | named {t : Bytes} {name : String} {rgb : RGB} (entry : (name, rgb) ∈ kCSSColors)
      (same : t.map toLowerAscii = (str name).map toLowerAscii) : InGrammar t

/-- The colours that the texts of the grammar denote. -/
inductive Denotes : Bytes → RGB → Prop
  | short {r g b : UInt8} {x y z : Nat} (hr : hexDigitValue r = some x)
      (hg : hexDigitValue g = some y) (hb : hexDigitValue b = some z) :
      Denotes [ch '#', r, g, b] ⟨.ofNat (17 * x), .ofNat (17 * y), .ofNat (17 * z)⟩
  | long {r₁ r₀ g₁ g₀ b₁ b₀ : UInt8} {x₁ x₀ y₁ y₀ z₁ z₀ : Nat}
      (hr₁ : hexDigitValue r₁ = some x₁) (hr₀ : hexDigitValue r₀ = some x₀)
      (hg₁ : hexDigitValue g₁ = some y₁) (hg₀ : hexDigitValue g₀ = some y₀)
      (hb₁ : hexDigitValue b₁ = some z₁) (hb₀ : hexDigitValue b₀ = some z₀) :
      Denotes [ch '#', r₁, r₀, g₁, g₀, b₁, b₀]
        ⟨.ofNat (16 * x₁ + x₀), .ofNat (16 * y₁ + y₀), .ofNat (16 * z₁ + z₀)⟩
  | components {t₁ t₂ t₃ d₁ d₂ d₃ : Bytes} (h₁ : Component t₁ d₁) (h₂ : Component t₂ d₂)
      (h₃ : Component t₃ d₃) (le₁ : valueOf d₁ ≤ 255) (le₂ : valueOf d₂ ≤ 255)
      (le₃ : valueOf d₃ ≤ 255) :
      Denotes (t₁ ++ ch ',' :: (t₂ ++ ch ',' :: t₃))
        ⟨.ofNat (valueOf d₁), .ofNat (valueOf d₂), .ofNat (valueOf d₃)⟩
  | named {t : Bytes} {name : String} {rgb : RGB} (entry : (name, rgb) ∈ kCSSColors)
      (same : t.map toLowerAscii = (str name).map toLowerAscii) : Denotes t rgb

/-- What is accepted is in the grammar, and what denotes a colour is read as that colour. -/
def ReadByGrammar (spec : Bytes) : Prop :=
  (∀ rgb, parseColorSpec spec = .ok rgb → InGrammar (trim spec)) ∧
    ∀ rgb, Denotes (trim spec) rgb → parseColorSpec spec = .ok rgb

/-- Three components, each a number of at most 255 in 16 bits, and a comma after them. -/
def TrailingComma (t : Bytes) : Prop :=
  ∃ t₁ t₂ t₃ d₁ d₂ d₃, Component t₁ d₁ ∧ Component t₂ d₂ ∧ Component t₃ d₃ ∧
    valueOf d₁ % 2 ^ 16 ≤ 255 ∧ valueOf d₂ % 2 ^ 16 ≤ 255 ∧ valueOf d₃ % 2 ^ 16 ≤ 255 ∧
    t = t₁ ++ ch ',' :: (t₂ ++ ch ',' :: (t₃ ++ [ch ',']))

/-- Three components, with or without a comma after the third. -/
def ThreeComponents (t d₁ d₂ d₃ : Bytes) : Prop :=
  ∃ t₁ t₂ t₃, Component t₁ d₁ ∧ Component t₂ d₂ ∧ Component t₃ d₃ ∧
    (t = t₁ ++ ch ',' :: (t₂ ++ ch ',' :: t₃) ∨
      t = t₁ ++ ch ',' :: (t₂ ++ ch ',' :: (t₃ ++ [ch ','])))

section Hexadecimal

theorem parseHexDigit_toOption (c : UInt8) :
    (parseHexDigit c).toOption = (hexDigitValue c).map UInt8.ofNat := by
  revert c
  exact forall_byte (by decide +kernel)

theorem hexDigitValue_lt {c : UInt8} {n : Nat} (h : hexDigitValue c = some n) : n < 16 := by
  have bound := List.findIdx?_eq_some_iff_getElem.mp h
  obtain ⟨less, _⟩ := bound
  exact less

theorem parseHexDigit_eq_ok {c v : UInt8} :
    parseHexDigit c = .ok v ↔ ∃ n, hexDigitValue c = some n ∧ v = .ofNat n := by
  rw [← toOption_eq_some, parseHexDigit_toOption, Option.map_eq_some_iff]
  simp only [eq_comm]

theorem nibbles (hi lo : Nat) (h : hi < 16) (l : lo < 16) :
    UInt8.ofNat hi <<< 4 ||| UInt8.ofNat lo = UInt8.ofNat (16 * hi + lo) := by
  have all : ∀ hi < 16, ∀ lo < 16,
      UInt8.ofNat hi <<< 4 ||| UInt8.ofNat lo = UInt8.ofNat (16 * hi + lo) := by
    decide +kernel
  exact all hi h lo l

theorem nibble_twice (n : Nat) (h : n < 16) :
    UInt8.ofNat n <<< 4 ||| UInt8.ofNat n = UInt8.ofNat (17 * n) := by
  rw [nibbles n n h h]
  congr 1
  omega

/-- A reader that goes on after a digit has found one. -/
theorem digit_bind {β : Type} {c : UInt8} {f : UInt8 → Except Error β} {b : β}
    (h : parseHexDigit c >>= f = .ok b) :
    ∃ n, hexDigitValue c = some n ∧ f (.ofNat n) = .ok b := by
  obtain ⟨_, digit, rest⟩ := bind_eq_ok.mp h
  obtain ⟨n, value, rfl⟩ := parseHexDigit_eq_ok.mp digit
  exact ⟨n, value, rest⟩

theorem parseHexColor_inGrammar {hex : Bytes} {rgb : RGB} (h : parseHexColor hex = .ok rgb) :
    InGrammar (ch '#' :: hex) := by
  simp only [parseHexColor] at h
  split at h
  · obtain ⟨_, h₁, h⟩ := digit_bind h
    obtain ⟨_, h₂, h⟩ := digit_bind h
    obtain ⟨_, h₃, h⟩ := digit_bind h
    obtain ⟨_, h₄, h⟩ := digit_bind h
    obtain ⟨_, h₅, h⟩ := digit_bind h
    obtain ⟨_, h₆, _⟩ := digit_bind h
    exact .long h₁ h₂ h₃ h₄ h₅ h₆
  · obtain ⟨_, h₁, h⟩ := digit_bind h
    obtain ⟨_, h₂, h⟩ := digit_bind h
    obtain ⟨_, h₃, _⟩ := digit_bind h
    exact .short h₁ h₂ h₃
  · cases h

theorem parseHexDigit_of_value {c : UInt8} {n : Nat} (h : hexDigitValue c = some n) :
    parseHexDigit c = .ok (.ofNat n) :=
  parseHexDigit_eq_ok.mpr ⟨n, h, rfl⟩

theorem parseHexColor_short {r g b : UInt8} {x y z : Nat} (hr : hexDigitValue r = some x)
    (hg : hexDigitValue g = some y) (hb : hexDigitValue b = some z) :
    parseHexColor [r, g, b] = .ok ⟨.ofNat (17 * x), .ofNat (17 * y), .ofNat (17 * z)⟩ := by
  simp only [parseHexColor, parseHexDigit_of_value hr, parseHexDigit_of_value hg,
    parseHexDigit_of_value hb, ok_bind, nibble_twice x (hexDigitValue_lt hr),
    nibble_twice y (hexDigitValue_lt hg), nibble_twice z (hexDigitValue_lt hb)]

theorem parseHexColor_long {r₁ r₀ g₁ g₀ b₁ b₀ : UInt8} {x₁ x₀ y₁ y₀ z₁ z₀ : Nat}
    (hr₁ : hexDigitValue r₁ = some x₁) (hr₀ : hexDigitValue r₀ = some x₀)
    (hg₁ : hexDigitValue g₁ = some y₁) (hg₀ : hexDigitValue g₀ = some y₀)
    (hb₁ : hexDigitValue b₁ = some z₁) (hb₀ : hexDigitValue b₀ = some z₀) :
    parseHexColor [r₁, r₀, g₁, g₀, b₁, b₀] =
      .ok ⟨.ofNat (16 * x₁ + x₀), .ofNat (16 * y₁ + y₀), .ofNat (16 * z₁ + z₀)⟩ := by
  simp only [parseHexColor, parseHexDigit_of_value hr₁, parseHexDigit_of_value hr₀,
    parseHexDigit_of_value hg₁, parseHexDigit_of_value hg₀, parseHexDigit_of_value hb₁,
    parseHexDigit_of_value hb₀, ok_bind,
    nibbles x₁ x₀ (hexDigitValue_lt hr₁) (hexDigitValue_lt hr₀),
    nibbles y₁ y₀ (hexDigitValue_lt hg₁) (hexDigitValue_lt hg₀),
    nibbles z₁ z₀ (hexDigitValue_lt hb₁) (hexDigitValue_lt hb₀)]

end Hexadecimal

section Components
variable {text digits rest : Bytes}

theorem isDigit_of_isBlank {c : UInt8} (h : isBlank c = true) : isDigit c = false :=
  forall_byte (P := fun c => isBlank c = true → isDigit c = false) (by decide +kernel) c h

theorem isBlank_of_isDigit {c : UInt8} (h : isDigit c = true) : isBlank c = false :=
  forall_byte (P := fun c => isDigit c = true → isBlank c = false) (by decide +kernel) c h

/-- The digit loop takes the digits at the head. -/
theorem parseComponent_eq (s : Bytes) (n : UInt16) (has : Bool) :
    parseComponent s n has =
      (read16 n (s.takeWhile isDigit), has || !(s.takeWhile isDigit).isEmpty,
        s.dropWhile isDigit) := by
  induction s generalizing n has with
  | nil => simp [parseComponent, read16]
  | cons c s ih =>
      by_cases digit : isDigit c = true
      · simp [parseComponent, digit, ih, read16]
      · simp [parseComponent, digit, read16]

/-- Blanks, digits and blanks at the head of `s`, with what follows them. -/
def Reads (s digits tail : Bytes) : Prop :=
  digits = (s.dropWhile isBlank).takeWhile isDigit ∧
    tail = ((s.dropWhile isBlank).dropWhile isDigit).dropWhile isBlank

theorem component_of_reads {s tail : Bytes} (reads : Reads s digits tail) (some : digits ≠ []) :
    ∃ text, s = text ++ tail ∧ Component text digits := by
  obtain ⟨rfl, rfl⟩ := reads
  refine ⟨s.takeWhile isBlank ++ (s.dropWhile isBlank).takeWhile isDigit ++
    ((s.dropWhile isBlank).dropWhile isDigit).takeWhile isBlank, ?_, _, _, ?_, ?_, some, ?_, rfl⟩
  · simp only [List.append_assoc, List.takeWhile_append_dropWhile]
  · exact fun c member => List.mem_takeWhile_imp member
  · exact fun c member => List.mem_takeWhile_imp member
  · exact fun c member => isDigit_iff.mp (List.mem_takeWhile_imp member)

/-- The end of the text, or a byte that ends a component. -/
def Stops (tail : Bytes) : Prop := ∀ c ∈ tail.head?, isBlank c = false ∧ isDigit c = false

theorem reads_of_component {tail : Bytes} (h : Component text digits) (stops : Stops tail) :
    Reads (text ++ tail) digits tail := by
  obtain ⟨before, after, hbefore, hafter, some, isDigits, rfl⟩ := h
  have hdigits : ∀ c ∈ digits, isDigit c = true := fun c member =>
    isDigit_iff.mpr (isDigits c member)
  have first : (before ++ digits ++ after ++ tail).dropWhile isBlank =
      digits ++ (after ++ tail) := by
    rw [List.append_assoc, List.append_assoc, List.dropWhile_append_of_pos hbefore]
    apply (dropWhile_of_head _).1
    obtain ⟨d, ds, rfl⟩ := List.exists_cons_of_ne_nil some
    intro c member
    cases member
    exact isBlank_of_isDigit (hdigits d List.mem_cons_self)
  have ends : ∀ c ∈ (after ++ tail).head?, isDigit c = false := by
    cases after with
    | nil => exact fun c member => (stops c member).2
    | cons b after =>
        intro c member
        cases member
        exact isDigit_of_isBlank (hafter b List.mem_cons_self)
  obtain ⟨none_dropped, none_taken⟩ := dropWhile_of_head ends
  constructor
  · rw [first, List.takeWhile_append_of_pos hdigits, none_taken, List.append_nil]
  · rw [first, List.dropWhile_append_of_pos hdigits, none_dropped,
      List.dropWhile_append_of_pos hafter, (dropWhile_of_head fun c member => (stops c member).1).1]

theorem read16_small {digits : Bytes} (small : valueOf digits % 2 ^ 16 ≤ 255) :
    read16 0 digits ≤ 255 := by
  rw [UInt16.le_iff_toNat_le, read16_toNat]
  exact small

/-- One round of the loop over the components. -/
theorem parseComponents_succ {spec s tail : Bytes} (missing : Nat) (reads : Reads s digits tail) :
    parseComponents spec (missing + 1) s =
      if digits = [] then
        .error ⟨str "expected numeric value in RGB spec [" ++ spec ++ str "]"⟩
      else if 255 < read16 0 digits then error "RGB component out of range (0..=255)"
      else
        match tail with
        | [] => .ok ([(read16 0 digits).toUInt8], [])
        | c :: rest =>
            if c = ch ',' then do
              let (components, rest) ← parseComponents spec missing rest
              .ok ((read16 0 digits).toUInt8 :: components, rest)
            else .ok ([(read16 0 digits).toUInt8], c :: rest) := by
  obtain ⟨rfl, rfl⟩ := reads
  simp only [parseComponents, parseComponent_eq, Bool.false_or, Bool.not_not,
    List.isEmpty_iff]
  rfl

/-- A round that succeeds has read a component, and then a comma or not. -/
theorem parseComponents_ok {spec s rest : Bytes} {missing : Nat} {components : List UInt8}
    (h : parseComponents spec (missing + 1) s = .ok (components, rest)) :
    ∃ text digits tail, s = text ++ tail ∧ Component text digits ∧
      valueOf digits % 2 ^ 16 ≤ 255 ∧
      ((∃ more others, tail = ch ',' :: more ∧
          parseComponents spec missing more = .ok (others, rest) ∧
          components.length = others.length + 1) ∨
        (components.length = 1 ∧ rest = tail ∧ rest.dropWhile isBlank = rest)) := by
  generalize hdigits : (s.dropWhile isBlank).takeWhile isDigit = digits
  generalize htail : ((s.dropWhile isBlank).dropWhile isDigit).dropWhile isBlank = tail
  have reads : Reads s digits tail := ⟨hdigits.symm, htail.symm⟩
  rw [parseComponents_succ missing reads] at h
  split at h
  · cases h
  case isFalse some =>
      obtain ⟨text, rfl, component⟩ := component_of_reads reads some
      split at h
      · cases h
      case isFalse small =>
          rw [UInt16.not_lt, UInt16.le_iff_toNat_le, read16_toNat] at small
          refine ⟨text, digits, tail, rfl, component, small, ?_⟩
          have idle : tail.dropWhile isBlank = tail := by
            rw [← htail, List.dropWhile_idempotent]
          split at h
          · cases h
            exact .inr ⟨rfl, rfl, rfl⟩
          case h_2 c more =>
              split at h
              case isTrue comma =>
                  obtain ⟨⟨others, last⟩, hmore, h⟩ := bind_eq_ok.mp h
                  cases h
                  exact .inl ⟨more, others, by rw [comma], hmore, rfl⟩
              case isFalse =>
                  cases h
                  exact .inr ⟨rfl, rfl, idle⟩

theorem stops_comma (rest : Bytes) : Stops (ch ',' :: rest) := by
  intro c member
  cases member
  decide

theorem stops_nil : Stops [] := fun _ member => by cases member

/-- The component that the loop makes of digits. -/
def componentOf (digits : Bytes) : UInt8 := (read16 0 digits).toUInt8

theorem parseComponents_comma {spec : Bytes} (missing : Nat) (h : Component text digits)
    (small : valueOf digits % 2 ^ 16 ≤ 255) (rest : Bytes) :
    parseComponents spec (missing + 1) (text ++ ch ',' :: rest) = (do
      let (components, rest) ← parseComponents spec missing rest
      .ok (componentOf digits :: components, rest)) := by
  obtain ⟨_, _, _, _, some, _⟩ := id h
  have within := UInt16.not_lt.mpr (read16_small small)
  simp only [parseComponents_succ missing (reads_of_component h (stops_comma rest)), if_neg some,
    if_neg within, if_true, componentOf]

theorem parseComponents_end {spec : Bytes} (missing : Nat) (h : Component text digits)
    (small : valueOf digits % 2 ^ 16 ≤ 255) :
    parseComponents spec (missing + 1) text = .ok ([componentOf digits], []) := by
  obtain ⟨_, _, _, _, some, _⟩ := id h
  have within := UInt16.not_lt.mpr (read16_small small)
  have reads := reads_of_component h stops_nil
  rw [List.append_nil] at reads
  simp only [parseComponents_succ missing reads, if_neg some, if_neg within, componentOf]

theorem componentOf_eq {digits : Bytes} (small : valueOf digits ≤ 255) :
    componentOf digits = .ofNat (valueOf digits) := by
  apply UInt8.toNat.inj
  have exact16 : (read16 0 digits).toNat = valueOf digits :=
    (read16_toNat 0 digits).trans (Nat.mod_eq_of_lt (Nat.lt_of_le_of_lt small (by decide)))
  rw [componentOf, UInt16.toNat_toUInt8, exact16, UInt8.toNat_ofNat']

end Components

section Texts
variable {t text digits : Bytes}

theorem component_mem (h : Component text digits) {c : UInt8} (member : c ∈ text) :
    isBlank c = true ∨ isDigit c = true := by
  obtain ⟨before, after, hbefore, hafter, _, isDigits, rfl⟩ := h
  simp only [List.mem_append] at member
  obtain (member | member) | member := member
  · exact .inl (hbefore c member)
  · exact .inr (isDigit_iff.mpr (isDigits c member))
  · exact .inl (hafter c member)

theorem component_ne_nil (h : Component text digits) : text ≠ [] := by
  obtain ⟨before, after, _, _, some, _, rfl⟩ := h
  simp [some]

theorem count_comma_component (h : Component text digits) : text.count (ch ',') = 0 := by
  apply List.count_eq_zero_of_not_mem
  intro member
  have either := component_mem h member
  revert either
  decide

/-- Texts that begin with a component do not begin with `#`. -/
theorem head_component (h : Component text digits) (rest : Bytes) :
    ∃ c more, text ++ rest = c :: more ∧ c ≠ ch '#' := by
  obtain ⟨c, more, rfl⟩ := List.exists_cons_of_ne_nil (component_ne_nil h)
  refine ⟨c, more ++ rest, rfl, ?_⟩
  intro hash
  have either := component_mem h List.mem_cons_self
  rw [hash] at either
  revert either
  decide

theorem trim_last (spec : Bytes) (some : trim spec ≠ []) :
    isBlank ((trim spec).getLast some) = false :=
  eq_false_of_ne_true (List.rdropWhile_last_not isBlank (spec.dropWhile isBlank) some)

/-- Nothing but blanks at the end of a trimmed text is nothing. -/
theorem blanks_at_end {spec front rest : Bytes} (h : trim spec = front ++ rest)
    (blank : rest.dropWhile isBlank = []) : rest = [] := by
  by_contra some
  have whole : trim spec ≠ [] := by
    rw [h]
    exact List.append_ne_nil_of_right_ne_nil front some
  have last := trim_last spec whole
  have same : (trim spec).getLast whole = rest.getLast some := by
    simp only [h]
    exact List.getLast_append_of_ne_nil _ some
  rw [same, List.dropWhile_eq_nil_iff.mp blank _ (List.getLast_mem some)] at last
  cases last

end Texts

section Names

def lowerNames : List Bytes := kCSSColors.map fun named => (str named.1).map toLowerAscii

theorem lowerNames_table : lowerNames.Nodup ∧
    ∀ name ∈ lowerNames, ch ',' ∉ name ∧ name.head? ≠ some (ch '#') ∧ name ≠ [] := by
  decide +kernel

variable {t : Bytes} {name : String} {rgb : RGB}

theorem lowerName_mem (entry : (name, rgb) ∈ kCSSColors) :
    (str name).map toLowerAscii ∈ lowerNames :=
  List.mem_map.mpr ⟨(name, rgb), entry, rfl⟩

theorem equalsIgnoreCase_iff {s t : Bytes} :
    equalsIgnoreCase s t = true ↔ s.map toLowerAscii = t.map toLowerAscii := by
  simp only [equalsIgnoreCase, Bool.and_eq_true, decide_eq_true_eq, and_iff_right_iff_imp]
  intro same
  simpa using congrArg List.length same

/-- A text that differs from a name of the table in case only has neither `,` nor `#`. -/
theorem named_text (entry : (name, rgb) ∈ kCSSColors)
    (same : t.map toLowerAscii = (str name).map toLowerAscii) :
    ch ',' ∉ t ∧ t.head? ≠ some (ch '#') ∧ t ≠ [] := by
  obtain ⟨comma, hash, some⟩ := lowerNames_table.2 _ (lowerName_mem entry)
  rw [← same] at comma hash some
  refine ⟨fun member => comma (List.mem_map_of_mem member), ?_, ?_⟩
  · intro head
    apply hash
    rw [List.head?_map, head]
    rfl
  · intro none
    apply some
    rw [none]
    rfl

theorem find_named (entry : (name, rgb) ∈ kCSSColors)
    (same : t.map toLowerAscii = (str name).map toLowerAscii) :
    kCSSColors.find? (fun named => equalsIgnoreCase t (str named.1)) = some (name, rgb) := by
  have found : (kCSSColors.find? fun named => equalsIgnoreCase t (str named.1)).isSome :=
    List.find?_isSome.mpr ⟨_, entry, equalsIgnoreCase_iff.mpr same⟩
  obtain ⟨other, hother⟩ := Option.isSome_iff_exists.mp found
  have chosen := List.find?_some hother
  have equal := equalsIgnoreCase_iff.mp chosen
  rw [hother, List.inj_on_of_nodup_map lowerNames_table.1 (List.mem_of_find?_eq_some hother) entry
    (equal.symm.trans same)]

end Names

section Specs
variable {spec : Bytes} {rgb : RGB}

theorem parseColorSpec_hex {hex : Bytes} (h : trim spec = ch '#' :: hex) :
    parseColorSpec spec = parseHexColor hex := by
  rw [parseColorSpec, h]
  rfl

/-- The part of the reader for components, when the first byte is not `#`. -/
theorem parseColorSpec_comma {c : UInt8} {more : Bytes} (h : trim spec = c :: more)
    (hash : c ≠ ch '#') (comma : ch ',' ∈ trim spec) :
    parseColorSpec spec = (do
      let (components, rest) ← parseComponents spec 3 (trim spec)
      match components with
      | [red, green, blue] =>
          if !(rest.dropWhile isBlank).isEmpty then
            error "unexpected trailing content in RGB spec"
          else .ok ⟨red, green, blue⟩
      | _ => .error ⟨str "RGB spec requires exactly 3 components [" ++ spec ++ str "]"⟩) := by
  rw [h] at comma
  rw [parseColorSpec, h]
  exact (if_neg hash).trans (if_pos comma)

theorem parseColorSpec_named {c : UInt8} {more : Bytes} (h : trim spec = c :: more)
    (hash : c ≠ ch '#') (comma : ch ',' ∉ trim spec) :
    parseColorSpec spec =
      match kCSSColors.find? fun named => equalsIgnoreCase (trim spec) (str named.1) with
      | some named => .ok named.2
      | none => .error ⟨str "unknown color spec: [" ++ spec ++ str "]"⟩ := by
  rw [h] at comma
  rw [parseColorSpec, h]
  exact (if_neg hash).trans (if_neg comma)

/-- What the loop reads as three components, with the check each has passed. -/
theorem three_components {rest : Bytes} {red green blue : UInt8}
    (h : parseComponents spec 3 (trim spec) = .ok ([red, green, blue], rest))
    (blank : rest.dropWhile isBlank = []) :
    ∃ d₁ d₂ d₃, ThreeComponents (trim spec) d₁ d₂ d₃ ∧
      ∀ d ∈ [d₁, d₂, d₃], valueOf d % 2 ^ 16 ≤ 255 := by
  obtain ⟨t₁, d₁, tail₁, whole, h₁, small₁, ⟨more₁, others₁, rfl, h, length₁⟩ | ⟨alone, _⟩⟩ :=
    parseComponents_ok h
  case inr => cases alone
  obtain ⟨t₂, d₂, tail₂, rfl, h₂, small₂, ⟨more₂, others₂, rfl, h, length₂⟩ | ⟨alone, _⟩⟩ :=
    parseComponents_ok h
  case inr => simp [alone] at length₁
  obtain ⟨t₃, d₃, tail₃, rfl, h₃, small₃, last⟩ := parseComponents_ok h
  have small : ∀ d ∈ [d₁, d₂, d₃], valueOf d % 2 ^ 16 ≤ 255 := by
    simp only [List.forall_mem_cons]
    exact ⟨small₁, small₂, small₃, fun _ none => absurd none List.not_mem_nil⟩
  refine ⟨d₁, d₂, d₃, ⟨t₁, t₂, t₃, h₁, h₂, h₃, ?_⟩, small⟩
  obtain ⟨more₃, others₃, rfl, h, _⟩ | ⟨_, rfl, idle⟩ := last
  case inl =>
      cases h
      have split : trim spec = (t₁ ++ ch ',' :: (t₂ ++ ch ',' :: (t₃ ++ [ch ',']))) ++ rest := by
        rw [whole]
        simp
      obtain rfl := blanks_at_end split blank
      exact .inr whole
  case inr =>
      obtain rfl : rest = [] := idle.symm.trans blank
      rw [whole, List.append_nil]
      exact .inl rfl

/-- Components are accepted as three that pass the check of the range. -/
theorem accepted_components (comma : ch ',' ∈ trim spec)
    (hash : (trim spec).head? ≠ some (ch '#')) (h : parseColorSpec spec = .ok rgb) :
    ∃ d₁ d₂ d₃, ThreeComponents (trim spec) d₁ d₂ d₃ ∧
      ∀ d ∈ [d₁, d₂, d₃], valueOf d % 2 ^ 16 ≤ 255 := by
  obtain ⟨c, more, shape⟩ := List.exists_cons_of_ne_nil (List.ne_nil_of_mem comma)
  have other : c ≠ ch '#' := by
    intro same
    exact hash (by rw [shape, same]; rfl)
  rw [parseColorSpec_comma shape other comma] at h
  obtain ⟨⟨components, rest⟩, hcomponents, h⟩ := bind_eq_ok.mp h
  dsimp only at h
  split at h
  · by_cases blank : rest.dropWhile isBlank = []
    · exact three_components hcomponents blank
    · simp [blank, error] at h
  · cases h

theorem three_inGrammar {t d₁ d₂ d₃ : Bytes} (three : ThreeComponents t d₁ d₂ d₃)
    (small : ∀ d ∈ [d₁, d₂, d₃], valueOf d % 2 ^ 16 ≤ 255) : InGrammar t ∨ TrailingComma t := by
  simp only [List.forall_mem_cons] at small
  obtain ⟨small₁, small₂, small₃, _⟩ := small
  obtain ⟨t₁, t₂, t₃, h₁, h₂, h₃, rfl | rfl⟩ := three
  · exact .inl (.components h₁ h₂ h₃)
  · exact .inr ⟨t₁, t₂, t₃, d₁, d₂, d₃, h₁, h₂, h₃, small₁, small₂, small₃, rfl⟩

theorem accepted_inGrammar (h : parseColorSpec spec = .ok rgb) :
    InGrammar (trim spec) ∨ TrailingComma (trim spec) := by
  cases shape : trim spec with
  | nil =>
      rw [parseColorSpec, shape] at h
      cases h
  | cons c more =>
      rw [← shape]
      by_cases hash : c = ch '#'
      · rw [hash] at shape
        rw [parseColorSpec_hex shape] at h
        rw [shape]
        exact .inl (parseHexColor_inGrammar h)
      · by_cases comma : ch ',' ∈ trim spec
        · have other : (trim spec).head? ≠ some (ch '#') := by
            rw [shape]
            exact fun same => hash (Option.some.inj same)
          obtain ⟨_, _, _, three, small⟩ := accepted_components comma other h
          exact three_inGrammar three small
        · rw [parseColorSpec_named shape hash comma] at h
          split at h
          case h_1 named found =>
              have chosen := List.find?_some found
              exact .inl (.named (List.mem_of_find?_eq_some found) (equalsIgnoreCase_iff.mp chosen))
          case h_2 => cases h

/-- The head of a text with commas that begins with a component. -/
theorem shape_of_component {text digits tail : Bytes} (h : Component text digits)
    (whole : trim spec = text ++ ch ',' :: tail) :
    ∃ c more, trim spec = c :: more ∧ c ≠ ch '#' ∧ ch ',' ∈ trim spec := by
  obtain ⟨c, more, shape, hash⟩ := head_component h (ch ',' :: tail)
  exact ⟨c, more, whole.trans shape, hash, by simp [whole]⟩

theorem components_read {t₁ t₂ t₃ d₁ d₂ d₃ : Bytes} (h₁ : Component t₁ d₁) (h₂ : Component t₂ d₂)
    (h₃ : Component t₃ d₃) (small₁ : valueOf d₁ % 2 ^ 16 ≤ 255)
    (small₂ : valueOf d₂ % 2 ^ 16 ≤ 255) (small₃ : valueOf d₃ % 2 ^ 16 ≤ 255)
    (whole : trim spec = t₁ ++ ch ',' :: (t₂ ++ ch ',' :: t₃)) :
    parseColorSpec spec = .ok ⟨componentOf d₁, componentOf d₂, componentOf d₃⟩ := by
  obtain ⟨c, more, shape, hash, comma⟩ := shape_of_component h₁ whole
  rw [parseColorSpec_comma shape hash comma, whole, parseComponents_comma 2 h₁ small₁,
    parseComponents_comma 1 h₂ small₂, parseComponents_end 0 h₃ small₃]
  rfl

theorem trailing_read {t₁ t₂ t₃ d₁ d₂ d₃ : Bytes} (h₁ : Component t₁ d₁) (h₂ : Component t₂ d₂)
    (h₃ : Component t₃ d₃) (small₁ : valueOf d₁ % 2 ^ 16 ≤ 255)
    (small₂ : valueOf d₂ % 2 ^ 16 ≤ 255) (small₃ : valueOf d₃ % 2 ^ 16 ≤ 255)
    (whole : trim spec = t₁ ++ ch ',' :: (t₂ ++ ch ',' :: (t₃ ++ [ch ',']))) :
    parseColorSpec spec = .ok ⟨componentOf d₁, componentOf d₂, componentOf d₃⟩ := by
  obtain ⟨c, more, shape, hash, comma⟩ := shape_of_component h₁ whole
  rw [parseColorSpec_comma shape hash comma, whole, parseComponents_comma 2 h₁ small₁,
    parseComponents_comma 1 h₂ small₂, parseComponents_comma 0 h₃ small₃]
  rfl

theorem trailing_comma_read (h : TrailingComma (trim spec)) :
    ∃ rgb, parseColorSpec spec = .ok rgb := by
  obtain ⟨t₁, t₂, t₃, d₁, d₂, d₃, h₁, h₂, h₃, small₁, small₂, small₃, whole⟩ := h
  exact ⟨_, trailing_read h₁ h₂ h₃ small₁ small₂ small₃ whole⟩

theorem trailing_comma_not_inGrammar {t : Bytes} (h : TrailingComma t) : ¬ InGrammar t := by
  obtain ⟨t₁, t₂, t₃, d₁, d₂, d₃, h₁, h₂, h₃, _, _, _, whole⟩ := h
  obtain ⟨c, more, shape, hash⟩ := head_component h₁ (ch ',' :: (t₂ ++ ch ',' :: (t₃ ++ [ch ','])))
  have three : t.count (ch ',') = 3 := by
    simp [whole, count_comma_component h₁, count_comma_component h₂, count_comma_component h₃]
  intro grammar
  cases grammar with
  | short =>
      rw [shape] at whole
      exact hash (List.head_eq_of_cons_eq whole).symm
  | long =>
      rw [shape] at whole
      exact hash (List.head_eq_of_cons_eq whole).symm
  | components g₁ g₂ g₃ =>
      simp [count_comma_component g₁, count_comma_component g₂, count_comma_component g₃] at three
  | named entry same =>
      exact (named_text entry same).1 (by simp [whole])

theorem denoted_read (h : Denotes (trim spec) rgb) : parseColorSpec spec = .ok rgb := by
  generalize shape : trim spec = t at h
  cases h with
  | short hr hg hb => rw [parseColorSpec_hex shape, parseHexColor_short hr hg hb]
  | long hr₁ hr₀ hg₁ hg₀ hb₁ hb₀ =>
      rw [parseColorSpec_hex shape, parseHexColor_long hr₁ hr₀ hg₁ hg₀ hb₁ hb₀]
  | components h₁ h₂ h₃ le₁ le₂ le₃ =>
      rw [components_read h₁ h₂ h₃ (Nat.le_trans (Nat.mod_le _ _) le₁)
        (Nat.le_trans (Nat.mod_le _ _) le₂) (Nat.le_trans (Nat.mod_le _ _) le₃) shape,
        componentOf_eq le₁, componentOf_eq le₂, componentOf_eq le₃]
  | named entry same =>
      obtain ⟨comma, hash, some⟩ := named_text entry same
      obtain ⟨c, more, rfl⟩ := List.exists_cons_of_ne_nil some
      rw [← shape] at comma
      rw [parseColorSpec_named shape (fun head => hash (congrArg Option.some head)) comma, shape,
        find_named entry same]

theorem color_spec_read_by_grammar_iff (spec : Bytes) :
    ReadByGrammar spec ↔ ¬ TrailingComma (trim spec) := by
  constructor
  · intro reads trailing
    obtain ⟨rgb, accepted⟩ := trailing_comma_read trailing
    exact trailing_comma_not_inGrammar trailing (reads.1 rgb accepted)
  · intro clean
    refine ⟨?_, fun _ denotes => denoted_read denotes⟩
    intro rgb accepted
    obtain grammar | trailing := accepted_inGrammar accepted
    · exact grammar
    · exact absurd trailing clean

theorem color_spec_not_always_read_by_grammar : ¬ ∀ spec, ReadByGrammar spec := by
  intro always
  have one : Component (str "1") (str "1") :=
    ⟨[], [], by simp [Blanks], by simp [Blanks], by decide, by decide, rfl⟩
  have two : Component (str "2") (str "2") :=
    ⟨[], [], by simp [Blanks], by simp [Blanks], by decide, by decide, rfl⟩
  have three : Component (str "3") (str "3") :=
    ⟨[], [], by simp [Blanks], by simp [Blanks], by decide, by decide, rfl⟩
  have trailing : TrailingComma (trim (str "1,2,3,")) :=
    ⟨_, _, _, _, _, _, one, two, three, by decide, by decide, by decide, by decide⟩
  exact trailing_comma_not_inGrammar trailing ((always _).1 ⟨1, 2, 3⟩ (by rfl))

end Specs

end Logrin.Pattern
