import Logrin.PatternFormat
import Logrin.PatternTiling

/-!
The spans stored in segments. They denote the scanned bytes as long as offsets and lengths
fit in 16 bits; nothing rejects a text for which they do not.
-/

namespace Logrin.Pattern
open Logrin.Library

variable {input : Bytes} {config : ParseConfig}

/-- How many bytes at the front of a block are its specification. -/
def specSize (kind : SegmentKind) (body : Bytes) : Nat :=
  match getSegmentCapability kind with
  | .specOnly => body.length
  | .specAndPadding =>
      match rfind (ch ':') body with
      | some colon => colon
      | none => if looksLikePadding body then 0 else body.length
  | .none | .paddingOnly => 0

theorem rfind_lt {c : UInt8} {s : Bytes} {i : Nat} (h : rfind c s = some i) : i < s.length := by
  induction s generalizing i with
  | nil => cases h
  | cons b s ih =>
      simp only [rfind] at h
      cases hs : rfind c s with
      | none =>
          simp only [hs, Option.ite_none_right_eq_some, Option.some.injEq] at h
          obtain ⟨_, rfl⟩ := h
          exact Nat.zero_lt_succ _
      | some j =>
          simp only [hs, Option.some.injEq] at h
          subst h
          exact Nat.succ_lt_succ (ih hs)

/-- Padding leaves the specification alone. -/
theorem parsePadding_spec {text : Bytes} {d d' : Directive} (h : parsePadding text d = .ok d') :
    d'.specOffset = d.specOffset ∧ d'.specLength = d.specLength := by
  have aligned : (parseAlignment text d).1.specOffset = d.specOffset ∧
      (parseAlignment text d).1.specLength = d.specLength := by
    simp only [parseAlignment]
    split
    · exact ⟨rfl, rfl⟩
    · split
      · exact ⟨rfl, rfl⟩
      · split
        · exact ⟨rfl, rfl⟩
        · exact ⟨rfl, rfl⟩
  simp only [parsePadding] at h
  split at h
  · cases h
    exact ⟨rfl, rfl⟩
  · obtain ⟨⟨width, hasDigits⟩, _, h⟩ := bind_eq_ok.mp h
    simp only at h
    split at h
    · cases h
    · split at h
      · cases h
        exact aligned
      · cases h
        exact aligned

/-- The directive of a block before its padding is read. -/
def specDirective (kind : SegmentKind) (body : Bytes) (offset : Nat) : Directive :=
  if 0 < specSize kind body then
    { specOffset := .ofNat offset, specLength := .ofNat (specSize kind body) }
  else { }

/-- An accepted block is a specification, if it has one, and padding. -/
theorem parse_eq_padding {kind : SegmentKind} {body : Bytes} {offset : Nat} {d : Directive}
    (h : Directive.parse body offset kind = .ok d) :
    ∃ padding, ∀ offset', Directive.parse body offset' kind =
      parsePadding padding (specDirective kind body offset') := by
  by_cases empty : body = []
  · subst empty
    refine ⟨[], fun offset' => ?_⟩
    cases hcap : getSegmentCapability kind with
    | none =>
        simp only [Directive.parse, hcap] at h
        cases h
    | _ => simp [Directive.parse, specDirective, specSize, hcap, parsePadding, rfind]
  · have filled : body.isEmpty = false := by simpa using empty
    have long : 0 < body.length := List.length_pos_of_ne_nil empty
    cases hcap : getSegmentCapability kind with
    | none =>
        simp only [Directive.parse, hcap] at h
        cases h
    | specOnly =>
        refine ⟨[], fun _ => ?_⟩
        simp [Directive.parse, specDirective, specSize, hcap, filled, long, parsePadding]
    | paddingOnly =>
        simp only [Directive.parse, specDirective, specSize, hcap, filled, Bool.false_eq_true,
          if_false] at h ⊢
        split at h
        · cases h
        · next plain => exact ⟨body, fun _ => by rw [if_neg plain]; rfl⟩
    | specAndPadding =>
        simp only [Directive.parse, specDirective, specSize, hcap, filled, Bool.false_eq_true,
          if_false]
        cases hfind : rfind (ch ':') body with
        | none =>
            by_cases padding : looksLikePadding body = true
            · exact ⟨body, fun _ => by simp [padding]⟩
            · exact ⟨[], fun _ => by simp [padding, long, parsePadding]⟩
        | some colon =>
            have inside := rfind_lt hfind
            refine ⟨body.drop (colon + 1), fun _ => ?_⟩
            by_cases first : colon = 0
            · simp [first]
            · have size : (body.take colon).length = colon := by
                rw [List.length_take]
                omega
              have some : (body.take colon).isEmpty = false := by
                rw [List.isEmpty_eq_false_iff_exists_mem]
                exact List.exists_mem_of_length_pos (by omega)
              simp only [some, size, Bool.false_eq_true, if_false, if_pos (Nat.pos_of_ne_zero first)]

/-- The specification stored for a block: where it begins and how long it is. -/
theorem parse_spec {kind : SegmentKind} {body : Bytes} {offset : Nat} {d : Directive}
    (h : Directive.parse body offset kind = .ok d) :
    d.specLength = .ofNat (specSize kind body) ∧
      (0 < specSize kind body → d.specOffset = .ofNat offset) := by
  obtain ⟨padding, parsed⟩ := parse_eq_padding h
  obtain ⟨offset_, length_⟩ := parsePadding_spec ((parsed offset).symm.trans h)
  rw [offset_, length_, specDirective]
  by_cases some : 0 < specSize kind body
  · rw [if_pos some]
    exact ⟨rfl, fun _ => rfl⟩
  · rw [if_neg some, Nat.eq_zero_of_not_pos some]
    exact ⟨rfl, fun h => absurd h (Nat.lt_irrefl 0)⟩

/-- What the formatter reads of a specification, with the offset and the length cut to 16 bits. -/
theorem specification_wrapped {kind : SegmentKind} {body : Bytes} {offset : Nat} {d : Directive}
    (h : Directive.parse body offset kind = .ok d) (some : 0 < specSize kind body)
    (inside : offset ≤ input.length) :
    d.specification input =
      .ok ((input.drop (offset % 2 ^ 16)).take (specSize kind body % 2 ^ 16)) := by
  obtain ⟨length_, offset_⟩ := parse_spec h
  have wrapped := Nat.mod_le offset (2 ^ 16)
  rw [Directive.specification, length_, offset_ some, UInt16.toNat_ofNat', UInt16.toNat_ofNat',
    substr, if_neg (by omega)]

/-- A segment denotes the bytes of its token, and no offset or length was altered. -/
def Token.Verbatim (p : ParsedPattern) : Token → Segment → Prop
  | .literal start stop, segment =>
      p.formatLiteral segment = .ok (slice p.pattern start stop) ∧
        segment.text.1.toNat = start ∧ segment.text.2.toNat = stop - start
  | .escape start, segment =>
      p.formatLiteral segment = .ok [ch '%'] ∧
        segment.text.1.toNat = start + 1 ∧ segment.text.2.toNat = 1
  | .directive _ _ none, _ => True
  | .directive kind nameEnd (some stop), segment =>
      let size := specSize kind (slice p.pattern (nameEnd + 1) (stop - 1))
      0 < size → ∃ d, segment.directive = some d ∧
        d.specification p.pattern = .ok (slice p.pattern (nameEnd + 1) (nameEnd + 1 + size)) ∧
        d.specOffset.toNat = nameEnd + 1 ∧ d.specLength.toNat = size

/-- The offset and the length a token makes the parser store fit in 16 bits. -/
def Token.Fits (input : Bytes) : Token → Prop
  | .literal start stop => start < 2 ^ 16 ∧ stop - start < 2 ^ 16
  | .escape start => start + 1 < 2 ^ 16
  | .directive _ _ none => True
  | .directive kind nameEnd (some stop) =>
      let size := specSize kind (slice input (nameEnd + 1) (stop - 1))
      0 < size → nameEnd + 1 < 2 ^ 16 ∧ size < 2 ^ 16

theorem stored_iff {n : Nat} : (UInt16.ofNat n).toNat = n ↔ n < 2 ^ 16 := by
  refine ⟨?_, toNat_ofNat⟩
  intro same
  have bound := (UInt16.ofNat n).toNat_lt
  omega

theorem substr_slice {s : Bytes} {a b : Nat} (inside : a ≤ s.length) :
    substr s a (b - a) = .ok (slice s a b) := by
  rw [substr, if_neg (Nat.not_lt.mpr inside), slice]

/-- Token by token: the stored span is the scanned one exactly when it fits. -/
theorem verbatim_iff_fits {len a b : Nat} {t : Token} {segment : Segment} {p : ParsedPattern}
    (short : len ≤ p.pattern.length) (lies : TokenAt p.pattern len a b t)
    (stored : Stored p.pattern t segment) : t.Verbatim p segment ↔ t.Fits p.pattern := by
  cases lies with
  | literal run =>
      obtain ⟨_, text, _⟩ := stored
      have some := run.some
      have fits := run.fits
      simp only [Token.Verbatim, Token.Fits, ParsedPattern.formatLiteral, text]
      constructor
      · intro same
        exact ⟨stored_iff.mp same.2.1, stored_iff.mp same.2.2⟩
      · intro small
        rw [toNat_ofNat small.1, toNat_ofNat small.2]
        exact ⟨substr_slice (by omega), rfl, rfl⟩
  | escape first more second =>
      obtain ⟨_, text, _⟩ := stored
      simp only [Token.Verbatim, Token.Fits, ParsedPattern.formatLiteral, text]
      constructor
      · intro same
        exact stored_iff.mp same.2.1
      · intro small
        rw [toNat_ofNat small]
        refine ⟨?_, rfl, rfl⟩
        have byte := substr_slice (s := p.pattern) (a := a + 1) (b := a + 2) (by omega)
        rw [slice_succ (by omega), second] at byte
        simpa using byte
  | @directive nameEnd kind block _ _ name read =>
      obtain ⟨_, _, stored⟩ := stored
      cases block with
      | none => exact Iff.rfl
      | some stop =>
          obtain ⟨d, parsed, same⟩ := Option.map_eq_some_iff.mp stored
          obtain ⟨length_, offset_⟩ := parse_spec (toOption_eq_some.mp parsed)
          have inside : nameEnd + 1 ≤ p.pattern.length := by
            have open_ : nameEnd < len := readBlock_inside read
            omega
          simp only [Token.Verbatim, Token.Fits]
          constructor
          · intro verbatim some
            obtain ⟨d', same', _, start, size⟩ := verbatim some
            obtain rfl : d = d' := Option.some.inj (same.trans same')
            rw [offset_ some] at start
            rw [length_] at size
            exact ⟨stored_iff.mp start, stored_iff.mp size⟩
          · intro small some
            obtain ⟨start, size⟩ := small some
            refine ⟨d, same.symm, ?_, ?_, ?_⟩
            · rw [specification_wrapped (toOption_eq_some.mp parsed) some inside,
                Nat.mod_eq_of_lt start, Nat.mod_eq_of_lt size, ← slice_add]
            · rw [offset_ some, toNat_ofNat start]
            · rw [length_, toNat_ofNat size]

theorem u32_le (n : Nat) : u32 n ≤ n := Nat.mod_le _ _

/-- The stored spans of an accepted text denote the scanned bytes, unaltered, exactly when
every literal run and every specification of the text starts before byte 65536 and is
shorter than that. -/
theorem spans_verbatim_iff {p : ParsedPattern} (h : parse input config = .ok p) :
    ∃ ts stop, tokens input = some ts ∧ u32 input.length ≤ stop ∧
      Tiles (TokenAt input (u32 input.length)) 0 ts stop ∧
      (List.Forall₂ (Token.Verbatim p) ts p.segments ↔ ∀ t ∈ ts, t.Fits input) := by
  obtain ⟨ts, hts, stored, _, few, rfl⟩ := parse_stored h
  obtain ⟨stop, past, tiles⟩ := tokens_tile hts (stored.length_eq ▸ few)
  refine ⟨ts, stop, hts, past, tiles, ?_⟩
  exact forall₂_iff_forall (tiles.forall₂ stored fun _ _ _ _ lies same =>
    verbatim_iff_fits (u32_le _) lies same)

/-- The scan of a text without `%` only moves forward. -/
theorem scanLoop_plain {len fuel : Nat} {c : Cursor} (plain : ∀ i, input.getD i 0 ≠ ch '%')
    (enough : len - c.pos ≤ fuel) (inside : c.pos ≤ len) (hin : c.inLiteral = true) :
    scanLoop input len fuel c = some ({ c with pos := len }, []) := by
  induction fuel generalizing c with
  | zero =>
      obtain rfl : c.pos = len := by omega
      rfl
  | succ fuel ih =>
      simp only [scanLoop]
      split
      · next more =>
          have step : advance input len c = some ({ c with pos := c.pos + 1 }, []) := by
            simp only [advance]
            rw [if_pos (by simp only [plain c.pos, ne_eq, not_false_eq_true, decide_true,
              Bool.true_or]), hin]
            rfl
          rw [step, Option.bind_some, ih (c := { c with pos := c.pos + 1 }) (by simp only; omega) more hin]
          rfl
      · obtain rfl : c.pos = len := by omega
        rfl

theorem tokens_plain (plain : ∀ i, input.getD i 0 ≠ ch '%') (some : 0 < input.length)
    (short : input.length < 2 ^ 32) : tokens input = Option.some [.literal 0 input.length] := by
  have first : advance input input.length .start =
      Option.some ({ pos := 1, literalStart := 0, inLiteral := true }, []) := by
    simp only [advance]
    rw [if_pos (by simp only [Cursor.start, plain 0, ne_eq, not_false_eq_true, decide_true,
      Bool.true_or])]
    rfl
  have fuel : parseFuel input.length = (64 * (input.length + 1) + input.length) + 1 := by
    simp only [parseFuel]
    omega
  simp only [tokens, u32_of_lt short, fuel, scanLoop]
  rw [if_pos (by exact some), first, Option.bind_some,
    scanLoop_plain plain (by simp only; omega) (by exact some) rfl]
  simp [Cursor.literalRun, some]

def letters (n : Nat) : Bytes := List.replicate n (ch 'a')

theorem letters_plain (n i : Nat) : (letters n).getD i 0 ≠ ch '%' := by
  rw [letters, List.getD_eq_getElem?_getD, List.getElem?_replicate]
  split
  · decide
  · decide

theorem spans_not_always_verbatim :
    ¬ ∀ (input : Bytes) (config : ParseConfig) (p : ParsedPattern),
      parse input config = .ok p →
        ∃ ts, tokens input = some ts ∧ List.Forall₂ (Token.Verbatim p) ts p.segments := by
  intro always
  have size : (letters 65536).length = 65536 := List.length_replicate
  have scanned := tokens_plain (letters_plain 65536) (by omega) (by omega)
  have accepted : (parse (letters 65536) { }).toOption =
      some { segments := [literalSegment 0 (letters 65536).length 0], pattern := letters 65536 } := by
    rw [parse_toOption, scanned]
    rfl
  obtain ⟨ts, hts, verbatim⟩ := always _ _ _ (toOption_eq_some.mp accepted)
  obtain rfl := Option.some.inj (hts.symm.trans scanned)
  cases verbatim with
  | cons hd tl =>
      have length_ := hd.2.2
      rw [size] at length_
      exact absurd length_ (by decide)

theorem spans_verbatim_sample :
    ∃ p ts, parse (str "%fg{red}%%%style:end") { } = .ok p ∧
      tokens (str "%fg{red}%%%style:end") = some ts ∧
      List.Forall₂ (Token.Verbatim p) ts p.segments := by
  obtain ⟨p, hp⟩ : ∃ p, parse (str "%fg{red}%%%style:end") { } = .ok p :=
    Option.isSome_iff_exists.mp (by decide +kernel) |>.imp fun _ => toOption_eq_some.mp
  have scanned : tokens (str "%fg{red}%%%style:end") =
      some [.directive .foregroundColorStart 3 (some 8), .escape 8, .directive .styleEnd 20 none] := by
    decide +kernel
  obtain ⟨ts, _, hts, _, _, exact_⟩ := spans_verbatim_iff hp
  obtain rfl := Option.some.inj (hts.symm.trans scanned)
  refine ⟨p, _, hp, scanned, exact_.mpr ?_⟩
  intro t ht
  simp only [List.mem_cons, List.not_mem_nil, or_false] at ht
  obtain rfl | rfl | rfl := ht
  · exact fun _ => by decide
  · exact (by decide : 8 + 1 < 2 ^ 16)
  · trivial

end Logrin.Pattern
