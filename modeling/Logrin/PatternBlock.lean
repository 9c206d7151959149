import Logrin.Library.Digits
import Logrin.Library.Loop
import Logrin.PatternSegment

/-!
What a `{...}` block says: the padding it is read as, and where it is split into a
specification and padding. A width is read exactly as long as it fits its 16 bits.
-/

namespace Logrin.Pattern
open Logrin.Library

/-- A padding block taken apart: fill, alignment and what should be the width. -/
structure Padding where
  fill : UInt8
  alignment : Alignment
  rest : Bytes
  deriving DecidableEq

/-- The padding block by its first two bytes. -/
def Padding.split : Bytes → Padding
  | c :: a :: rest =>
      if isAlignmentCharacter a then ⟨c, getAlignmentFromCharacter a, rest⟩
      else if isAlignmentCharacter c then ⟨ch ' ', getAlignmentFromCharacter c, a :: rest⟩
      else if c = ch '0' then ⟨ch '0', .right, a :: rest⟩
      else ⟨ch ' ', .right, c :: a :: rest⟩
  | [c] =>
      if isAlignmentCharacter c then ⟨ch ' ', getAlignmentFromCharacter c, []⟩
      else ⟨ch ' ', .right, [c]⟩
  | [] => ⟨ch ' ', .right, []⟩

def Padding.directive (p : Padding) (offset length : UInt16) : Directive where
  specOffset := offset
  specLength := length
  width := read16 0 p.rest
  alignment := p.alignment
  fill := p.fill

def Padding.Complete (p : Padding) : Prop := p.rest ≠ [] ∧ Digits p.rest

theorem parseWidth_digits {s : Bytes} (digits : Digits s) (w : UInt16) (has : Bool) :
    parseWidth s w has = .ok (read16 w s, has || !s.isEmpty) := by
  induction s generalizing w has with
  | nil => simp [parseWidth, read16]
  | cons c s ih =>
      obtain ⟨first, others⟩ := digits_cons.mp digits
      rw [parseWidth, isDigit_iff.mpr first, ih others]
      simp [read16]

theorem parseWidth_error {s : Bytes} (h : ¬ Digits s) (w : UInt16) (has : Bool) :
    ∃ e, parseWidth s w has = .error e := by
  induction s generalizing w has with
  | nil => exact absurd digits_nil h
  | cons c s ih =>
      rw [parseWidth]
      split
      · exact ⟨_, rfl⟩
      · next digit =>
          have first : isDigit c = true := by simpa using digit
          exact ih (fun others => h (digits_cons.mpr ⟨isDigit_iff.mp first, others⟩)) _ _

theorem getAlignment_ne_none {c : UInt8} (h : isAlignmentCharacter c = true) :
    getAlignmentFromCharacter c ≠ .none := by
  simp only [isAlignmentCharacter, Bool.or_eq_true, decide_eq_true_eq] at h
  obtain (rfl | rfl) | rfl := h <;> decide

/-- What `parsePadding` makes of the head of a block, once the width is read. -/
def withWidth (d : Directive) (width : UInt16) : Directive :=
  { d with
    width := width
    alignment := if d.alignment = .none then .right else d.alignment }

theorem parseAlignment_split {s : Bytes} (some : s ≠ []) (offset length : UInt16) :
    ∃ d pos, parseAlignment s { specOffset := offset, specLength := length } = (d, pos) ∧
      s.drop pos = (Padding.split s).rest ∧
      withWidth d (read16 0 (s.drop pos)) = (Padding.split s).directive offset length ∧
      (s.drop pos = [] → d.alignment ≠ .none) := by
  cases s with
  | nil => exact absurd rfl some
  | cons c s =>
      cases s with
      | nil =>
          by_cases first : isAlignmentCharacter c = true
          · refine ⟨_, 1, by simp [parseAlignment, first]; rfl, ?_⟩
            simp [Padding.split, first, withWidth, Padding.directive, getAlignment_ne_none first]
          · refine ⟨_, 0, by simp [parseAlignment, first]; rfl, ?_⟩
            simp [Padding.split, first, withWidth, Padding.directive]
      | cons a rest =>
          by_cases second : isAlignmentCharacter a = true
          · refine ⟨_, 2, by simp [parseAlignment, second]; rfl, ?_⟩
            simp [Padding.split, second, withWidth, Padding.directive,
              getAlignment_ne_none second]
          · by_cases first : isAlignmentCharacter c = true
            · refine ⟨_, 1, by simp [parseAlignment, first, second]; rfl, ?_⟩
              simp [Padding.split, first, second, withWidth, Padding.directive,
                getAlignment_ne_none first]
            · by_cases zero : c = ch '0'
              · subst zero
                refine ⟨_, 1, by simp [parseAlignment, first, second]; rfl, ?_⟩
                simp [Padding.split, first, second, withWidth, Padding.directive]
              · refine ⟨_, 0, by simp [parseAlignment, first, second, zero]; rfl, ?_⟩
                simp [Padding.split, first, second, zero, withWidth, Padding.directive]

/-- `parsePadding` on a block: the padding it is split into, its width in 16 bits, or an
error. -/
theorem parsePadding_eq {s : Bytes} (some : s ≠ []) (offset length : UInt16) :
    ((Padding.split s).Complete →
      parsePadding s { specOffset := offset, specLength := length } =
        .ok ((Padding.split s).directive offset length)) ∧
    (¬ (Padding.split s).Complete →
      ∃ e, parsePadding s { specOffset := offset, specLength := length } = .error e) := by
  obtain ⟨d, pos, head, rest, whole, aligned⟩ := parseAlignment_split some offset length
  have nonempty : s.isEmpty = false := by simpa using some
  simp only [Padding.Complete, parsePadding, nonempty, Bool.false_eq_true, if_false, head, ← rest,
    ← whole]
  by_cases digits : Digits (s.drop pos)
  · rw [parseWidth_digits digits]
    cases hs : s.drop pos with
    | nil => simp [aligned hs, error]
    | cons c t =>
        by_cases bare : d.alignment = .none
        · simp [withWidth, bare, hs ▸ digits]
        · simp [withWidth, bare, hs ▸ digits]
  · obtain ⟨e, he⟩ := parseWidth_error digits 0 false
    rw [he]
    exact ⟨fun complete => absurd complete.2 digits, fun _ => ⟨e, rfl⟩⟩

/-- A padding block is accepted when it ends in a width of 16 bits, and read as what it
says. -/
def ReadExactly (s : Bytes) : Prop :=
  ∀ offset length,
    ((∃ d, parsePadding s { specOffset := offset, specLength := length } = .ok d) ↔
      (Padding.split s).Complete ∧ valueOf (Padding.split s).rest < 2 ^ 16) ∧
    ∀ d, parsePadding s { specOffset := offset, specLength := length } = .ok d →
      d.width.toNat = valueOf (Padding.split s).rest ∧ d.fill = (Padding.split s).fill ∧
      d.alignment = (Padding.split s).alignment ∧ d.specOffset = offset ∧ d.specLength = length

theorem Padding.directive_width {p : Padding} (fits : valueOf p.rest < 2 ^ 16)
    (offset length : UInt16) : (p.directive offset length).width.toNat = valueOf p.rest :=
  (read16_toNat 0 p.rest).trans (Nat.mod_eq_of_lt fits)

/-- A padding block is read exactly if and only if its width, where it has one, is below
65536. -/
theorem padding_read_exactly_iff {s : Bytes} (some : s ≠ []) :
    ReadExactly s ↔
      (Digits (Padding.split s).rest → valueOf (Padding.split s).rest < 2 ^ 16) := by
  constructor
  · intro exact_ digits
    by_cases complete : (Padding.split s).Complete
    · exact ((exact_ 0 0).1.mp ⟨_, (parsePadding_eq some 0 0).1 complete⟩).2
    · have empty : (Padding.split s).rest = [] := by
        apply Decidable.byContradiction
        intro rest
        exact complete ⟨rest, digits⟩
      rw [empty]
      decide
  · intro fits offset length
    obtain ⟨accepted, rejected⟩ := parsePadding_eq some offset length
    by_cases complete : (Padding.split s).Complete
    · have small := fits complete.2
      rw [accepted complete]
      refine ⟨⟨fun _ => ⟨complete, small⟩, fun _ => ⟨_, rfl⟩⟩, ?_⟩
      intro d same
      cases same
      exact ⟨Padding.directive_width small offset length, rfl, rfl, rfl, rfl⟩
    · obtain ⟨e, he⟩ := rejected complete
      rw [he]
      refine ⟨⟨fun h => ?_, fun h => absurd h.1 complete⟩, fun d same => ?_⟩
      · obtain ⟨_, same⟩ := h
        cases same
      · cases same

theorem padding_read_sample :
    ReadExactly (str "*^10") ∧ Padding.split (str "*^10") = ⟨ch '*', .center, str "10"⟩ :=
  ⟨(padding_read_exactly_iff (by decide)).mpr fun _ => by decide, by decide⟩

/-- A width of 65536 is accepted, as 0. -/
theorem padding_not_always_read_exactly : ¬ ∀ s : Bytes, s ≠ [] → ReadExactly s := by
  intro always
  have width := ((always (str "<65536") (by decide) 0 0).2 (Directive.mk 0 0 0 .left (ch ' '))
    (by decide)).1
  exact absurd width (by decide)

/-- A padding block written out: a fill, an alignment and a width. -/
def paddingText (fill alignment : UInt8) (width : Nat) : Bytes :=
  fill :: alignment :: decimal width

section
variable {fill alignment : UInt8} {width : Nat}

theorem colon_not_digit {s : Bytes} (digits : Digits s) : ch ':' ∉ s := by
  intro member
  exact absurd (digits _ member).2 (by decide)

theorem colon_not_alignment (aligned : isAlignmentCharacter alignment = true) :
    ch ':' ≠ alignment := by
  intro same
  rw [← same] at aligned
  exact absurd aligned (by decide)

theorem colon_not_mem_paddingText (other : fill ≠ ch ':')
    (aligned : isAlignmentCharacter alignment = true) :
    ch ':' ∉ paddingText fill alignment width := by
  simp only [paddingText, List.mem_cons, not_or]
  exact ⟨Ne.symm other, colon_not_alignment aligned, colon_not_digit (digits_decimal width)⟩

/-- A padding block that is written out is read back. -/
theorem parsePadding_paddingText (aligned : isAlignmentCharacter alignment = true)
    (offset length : UInt16) :
    parsePadding (paddingText fill alignment width)
        { specOffset := offset, specLength := length } =
      .ok ⟨offset, length, read16 0 (decimal width), getAlignmentFromCharacter alignment,
        fill⟩ := by
  have split : Padding.split (paddingText fill alignment width) =
      ⟨fill, getAlignmentFromCharacter alignment, decimal width⟩ := by
    rw [paddingText, Padding.split, if_pos aligned]
  have some : paddingText fill alignment width ≠ [] := List.cons_ne_nil _ _
  have complete : (Padding.split (paddingText fill alignment width)).Complete := by
    rw [split]
    exact ⟨decimal_ne_nil width, digits_decimal width⟩
  rw [(parsePadding_eq some offset length).1 complete, split]
  rfl

theorem read16_decimal (fits : width < 2 ^ 16) : (read16 0 (decimal width)).toNat = width := by
  have same : valueFrom (UInt16.toNat 0) (decimal width) = width := valueOf_decimal width
  rw [read16_toNat, same, Nat.mod_eq_of_lt fits]

theorem parse_spec_padding {kind : SegmentKind} (both : getSegmentCapability kind = .specAndPadding)
    {spec : Bytes} (some : spec ≠ []) (other : fill ≠ ch ':')
    (aligned : isAlignmentCharacter alignment = true) (offset : Nat) :
    Directive.parse (spec ++ ch ':' :: paddingText fill alignment width) offset kind =
      .ok ⟨.ofNat offset, .ofNat spec.length, read16 0 (decimal width),
        getAlignmentFromCharacter alignment, fill⟩ := by
  have nonempty : (spec ++ ch ':' :: paddingText fill alignment width).isEmpty = false := by
    simp
  have isEmpty : spec.isEmpty = false := by simpa using some
  rw [Directive.parse, both]
  simp only [nonempty, Bool.false_eq_true, if_false,
    rfind_append_cons (colon_not_mem_paddingText other aligned), List.take_left, isEmpty]
  rw [← List.drop_drop, List.drop_left, List.drop_one, List.tail_cons,
    parsePadding_paddingText aligned]

theorem parse_padding {kind : SegmentKind} (both : getSegmentCapability kind = .specAndPadding)
    (other : fill ≠ ch ':') (aligned : isAlignmentCharacter alignment = true) (offset : Nat) :
    Directive.parse (paddingText fill alignment width) offset kind =
      .ok ⟨0, 0, read16 0 (decimal width), getAlignmentFromCharacter alignment, fill⟩ := by
  have looks : looksLikePadding (paddingText fill alignment width) = true := by
    simp [looksLikePadding, paddingText, aligned]
  rw [Directive.parse, both]
  simp only [rfind_eq_none (colon_not_mem_paddingText other aligned), looks, if_true]
  exact parsePadding_paddingText aligned 0 0

/-- A kind without specifications reads the block, or refuses a `:` in it. -/
theorem parse_padding_only {kind : SegmentKind} (only : getSegmentCapability kind = .paddingOnly)
    (aligned : isAlignmentCharacter alignment = true) (offset : Nat) :
    Directive.parse (paddingText fill alignment width) offset kind =
        .ok ⟨0, 0, read16 0 (decimal width), getAlignmentFromCharacter alignment, fill⟩ ∨
      ∃ e, Directive.parse (paddingText fill alignment width) offset kind = .error e := by
  rw [Directive.parse, only]
  by_cases colon : ch ':' ∈ paddingText fill alignment width
  · simp only [colon, if_true]
    exact Or.inr ⟨_, rfl⟩
  · simp only [colon, if_false]
    exact Or.inl (parsePadding_paddingText aligned 0 0)

end

/-- The directive a block was written for. -/
def Decodes (d : Directive) (offset length : Nat) (fill alignment : UInt8) (width : Nat) : Prop :=
  d.specOffset.toNat = offset ∧ d.specLength.toNat = length ∧ d.fill = fill ∧
    d.alignment = getAlignmentFromCharacter alignment ∧ d.width.toNat = width

/-- Blocks decode what they encode, unless their fill is the `:` at which the kinds with
both a specification and padding split a block. -/
theorem blocks_decode {fill alignment : UInt8} {width : Nat}
    (aligned : isAlignmentCharacter alignment = true) (fits : width < 2 ^ 16) (offset : Nat) :
    (∀ kind, kind = .level ∨ kind = .threadId → ∀ spec : Bytes, spec ≠ [] → fill ≠ ch ':' →
      offset < 2 ^ 16 → spec.length < 2 ^ 16 →
      ∃ d, Directive.parse (spec ++ ch ':' :: paddingText fill alignment width) offset kind =
          .ok d ∧ Decodes d offset spec.length fill alignment width) ∧
    ∀ kind, kind = .level ∨ kind = .threadId ∨ kind = .logger → fill ≠ ch ':' ∨ kind = .logger →
      (∃ d, Directive.parse (paddingText fill alignment width) offset kind = .ok d ∧
          d.hasSpecification = false ∧ Decodes d 0 0 fill alignment width) ∨
        ∃ e, Directive.parse (paddingText fill alignment width) offset kind = .error e := by
  constructor
  · intro kind hkind spec some other low short
    have both : getSegmentCapability kind = .specAndPadding := by
      obtain rfl | rfl := hkind <;> rfl
    exact ⟨_, parse_spec_padding both some other aligned offset,
      UInt16.toNat_ofNat_of_lt' low, UInt16.toNat_ofNat_of_lt' short, rfl, rfl,
      read16_decimal fits⟩
  · intro kind hkind free
    have decodes : Decodes ⟨0, 0, read16 0 (decimal width), getAlignmentFromCharacter alignment,
        fill⟩ 0 0 fill alignment width := ⟨rfl, rfl, rfl, rfl, read16_decimal fits⟩
    cases hcap : getSegmentCapability kind with
    | specAndPadding =>
        have other : fill ≠ ch ':' := by
          obtain other | rfl := free
          · exact other
          · cases hcap
        exact Or.inl ⟨_, parse_padding hcap other aligned offset, rfl, decodes⟩
    | paddingOnly =>
        exact (parse_padding_only hcap aligned offset).imp_left fun read =>
          ⟨_, read, rfl, decodes⟩
    | none | specOnly => obtain rfl | rfl | rfl := hkind <;> cases hcap

theorem blocks_decode_sample :
    ∃ d, Directive.parse (str "upper:*<5") 3 .level = .ok d ∧
      Decodes d 3 5 (ch '*') (ch '<') 5 :=
  (@blocks_decode (ch '*') (ch '<') 5 (by decide) (by decide) 3).1 .level (Or.inl rfl)
    (str "upper") (by decide) (by decide) (by decide) (by decide)

/-- With the fill `:` the block is split at its fill, and pads with blanks. -/
theorem blocks_not_always_decode :
    ¬ ∀ (fill alignment : UInt8) (width offset : Nat),
      isAlignmentCharacter alignment = true → width < 2 ^ 16 →
      (∀ kind, kind = .level ∨ kind = .threadId → ∀ spec : Bytes, spec ≠ [] →
        offset < 2 ^ 16 → spec.length < 2 ^ 16 →
        ∃ d, Directive.parse (spec ++ ch ':' :: paddingText fill alignment width) offset kind =
            .ok d ∧ Decodes d offset spec.length fill alignment width) ∧
      ∀ kind, kind = .level ∨ kind = .threadId ∨ kind = .logger →
        (∃ d, Directive.parse (paddingText fill alignment width) offset kind = .ok d ∧
            d.hasSpecification = false ∧ Decodes d 0 0 fill alignment width) ∨
          ∃ e, Directive.parse (paddingText fill alignment width) offset kind = .error e := by
  intro always
  have parsed : Directive.parse (paddingText (ch ':') (ch '<') 5) 3 .level =
      .ok ⟨0, 0, 5, .left, ch ' '⟩ := by
    decide
  have read := (always (ch ':') (ch '<') 5 3 (by decide) (by decide)).2 .level (Or.inl rfl)
  rw [parsed] at read
  obtain ⟨d, same, _, decodes⟩ | ⟨e, refused⟩ := read
  · cases same
    exact absurd decodes.2.2.1 (by decide)
  · cases refused

end Logrin.Pattern
