import Logrin.PatternAcceptance
import Logrin.PatternBlock
import Logrin.PatternRender
import Logrin.PatternSeam

/-!
Two patterns after one another: the whole is accepted, and renders every record as the first
pattern followed by the second.
-/

namespace Logrin.Pattern
open Logrin.Library

namespace Token

def text (input : Bytes) : Token → Bytes
  | .literal start stop => slice input start stop
  | .escape _ => [ch '%']
  | .directive _ _ _ => []

def spec (input : Bytes) : Token → Option Bytes
  | .directive kind nameEnd (some stop) =>
      let size := specSize kind (slice input (nameEnd + 1) (stop - 1))
      if 0 < size then some (slice input (nameEnd + 1) (nameEnd + 1 + size)) else none
  | _ => none

end Token

theorem specSize_le (kind : SegmentKind) (body : Bytes) : specSize kind body ≤ body.length := by
  simp only [specSize]
  split
  · exact Nat.le_refl _
  · split
    · next found => exact Nat.le_of_lt (rfind_lt found)
    · split
      · exact Nat.zero_le _
      · exact Nat.le_refl _
  · exact Nat.zero_le _
  · exact Nat.zero_le _

section Meaning
variable {input : Bytes} {a b : Nat} {t : Token} {segment : Segment}

/-- In a text of at most 65535 bytes every span fits. -/
theorem TokenAt.fits (short : input.length ≤ 65535) (lies : TokenAt input input.length a b t) :
    t.Fits input := by
  obtain ⟨_, last⟩ := lies.inside (by omega)
  cases lies with
  | literal run =>
      have some := run.some
      exact ⟨by omega, by omega⟩
  | escape => exact (by omega : a + 1 < 2 ^ 16)
  | @directive nameEnd kind block _ _ name read =>
      cases block with
      | none => trivial
      | some stop =>
          intro _
          have open_ := readBlock_inside read
          have size := specSize_le kind (slice input (nameEnd + 1) (stop - 1))
          rw [length_slice] at size
          exact ⟨by omega, by omega⟩

theorem TokenAt.text_eq (short : input.length ≤ 65535)
    (lies : TokenAt input input.length a b t) (stored : Stored input t segment) :
    substr input segment.text.1.toNat segment.text.2.toNat = .ok (t.text input) := by
  have verbatim := (verbatim_iff_fits (p := ⟨[], input⟩) (Nat.le_refl _) lies stored).mpr
    (lies.fits short)
  cases t with
  | literal | escape => exact verbatim.1
  | directive =>
      rw [stored.2.1]
      exact if_neg (Nat.not_lt_zero _)

theorem TokenAt.spec_eq (short : input.length ≤ 65535)
    (lies : TokenAt input input.length a b t) (stored : Stored input t segment) :
    segment.spec input = .ok (t.spec input) := by
  have verbatim := (verbatim_iff_fits (p := ⟨[], input⟩) (Nat.le_refl _) lies stored).mpr
    (lies.fits short)
  cases t with
  | literal | escape => rw [Segment.spec, stored.2.2]; rfl
  | directive kind nameEnd block =>
      obtain ⟨_, _, read⟩ := stored
      cases block with
      | none => rw [Segment.spec, ← Option.some.inj read]; rfl
      | some stop =>
          obtain ⟨d, parsed, same⟩ := Option.map_eq_some_iff.mp read
          obtain ⟨length_, _⟩ := parse_spec (toOption_eq_some.mp parsed)
          rw [Segment.spec, ← same, Token.spec]
          by_cases some : 0 < specSize kind (slice input (nameEnd + 1) (stop - 1))
          · obtain ⟨d', same', spec, _, size⟩ := verbatim some
            obtain rfl : d = d' := Option.some.inj (same.trans same')
            have has : d.hasSpecification = true := by
              rw [Directive.hasSpecification, decide_eq_true_eq, UInt16.lt_iff_toNat_lt, size]
              exact some
            simp only [has, if_true, spec, ok_bind, some]
          · have zero := Nat.eq_zero_of_not_pos some
            have none : d.hasSpecification = false := by
              rw [Directive.hasSpecification, length_, zero]
              rfl
            simp only [none, Bool.false_eq_true, if_false, some]

/-- Directives that differ in where their specification begins. -/
def SameButOffset (d d' : Option Directive) : Prop :=
  ∃ offset, d' = d.map fun d => { d with specOffset := offset }

theorem sameButOffset_refl (d : Option Directive) : SameButOffset d d := by
  cases d with
  | none => exact ⟨0, rfl⟩
  | some d => exact ⟨d.specOffset, rfl⟩

theorem parsePadding_offset {s : Bytes} {length : UInt16} {d : Directive} (o o' : UInt16)
    (h : parsePadding s { specOffset := o, specLength := length } = .ok d) :
    parsePadding s { specOffset := o', specLength := length } =
      .ok { d with specOffset := o' } := by
  by_cases some : s = []
  · subst some
    cases h
    rfl
  · obtain ⟨accepted, rejected⟩ := parsePadding_eq some o length
    by_cases complete : (Padding.split s).Complete
    · rw [accepted complete] at h
      cases h
      exact (parsePadding_eq some o' length).1 complete
    · obtain ⟨e, he⟩ := rejected complete
      rw [he] at h
      cases h

/-- A block reads the same wherever it stands. -/
theorem parse_offset {kind : SegmentKind} {body : Bytes} {offset : Nat} {d : Directive}
    (offset' : Nat) (h : Directive.parse body offset kind = .ok d) :
    ∃ o, Directive.parse body offset' kind = .ok { d with specOffset := o } := by
  obtain ⟨padding, parsed⟩ := parse_eq_padding h
  rw [parsed] at h ⊢
  simp only [specDirective] at h ⊢
  split
  · next some =>
      rw [if_pos some] at h
      exact ⟨_, parsePadding_offset _ _ h⟩
  · next none =>
      rw [if_neg none] at h
      exact ⟨d.specOffset, h⟩

end Meaning

/-- Segments of two texts that say the same. -/
structure Alike (input input' : Bytes) (s s' : Segment) : Prop where
  kind : s.kind = s'.kind
  text : substr input s.text.1.toNat s.text.2.toNat =
    substr input' s'.text.1.toNat s'.text.2.toNat
  spec : s.spec input = s'.spec input'
  padded : ∀ content, ParsedPattern.padded s content = ParsedPattern.padded s' content

section Alike
variable {p q input input' : Bytes} {a b a' b' : Nat} {t t' : Token}

theorem padded_sameButOffset {s s' : Segment} (h : SameButOffset s.directive s'.directive)
    (content : Bytes) : ParsedPattern.padded s content = ParsedPattern.padded s' content := by
  obtain ⟨offset, same⟩ := h
  rw [ParsedPattern.padded, ParsedPattern.padded, same]
  cases s.directive with
  | none => rfl
  | some d => rfl

theorem Token.stored (readable : t.Readable input) (depth : Nat) :
    Stored input t (t.segment input depth) := by
  cases t with
  | literal | escape => exact ⟨rfl, rfl, rfl⟩
  | directive =>
      obtain ⟨directive, read, _⟩ := readable
      refine ⟨rfl, rfl, ?_⟩
      simp only [Token.segment, read, Option.getD_some]

/-- Tokens with the same text, specification and padding give segments that say the same. -/
theorem alike_of_tokens (short : input.length ≤ 65535) (short' : input'.length ≤ 65535)
    (lies : TokenAt input input.length a b t) (lies' : TokenAt input' input'.length a' b' t')
    (readable : t.Readable input) (readable' : t'.Readable input') (depth depth' : Nat)
    (kind : t.kind = t'.kind) (text : t.text input = t'.text input')
    (spec : t.spec input = t'.spec input')
    (padding : SameButOffset (t.segment input depth).directive
      (t'.segment input' depth').directive) :
    Alike input input' (t.segment input depth) (t'.segment input' depth') where
  kind := by rw [Token.segment_kind, Token.segment_kind, kind]
  text := by
    rw [lies.text_eq short (t.stored readable depth),
      lies'.text_eq short' (t'.stored readable' depth'), text]
  spec := by
    rw [lies.spec_eq short (t.stored readable depth),
      lies'.spec_eq short' (t'.stored readable' depth'), spec]
  padded := padded_sameButOffset padding

theorem readDirective_append (q : Bytes) {kind : SegmentKind} {nameEnd : Nat}
    {block : Option Nat} (inside : ∀ stop, block = some stop → stop ≤ p.length) :
    readDirective (p ++ q) kind nameEnd block = readDirective p kind nameEnd block := by
  cases block with
  | none => rfl
  | some stop =>
      have within := inside stop rfl
      rw [readDirective, readDirective, slice_append_left q _ (by omega)]

theorem readDirective_shift (p : Bytes) {kind : SegmentKind} {nameEnd : Nat}
    {block : Option Nat} {directive : Option Directive}
    (some_ : ∀ stop, block = some stop → 0 < stop)
    (h : readDirective q kind nameEnd block = some directive) :
    ∃ directive', readDirective (p ++ q) kind (p.length + nameEnd)
      (block.map (p.length + ·)) = some directive' ∧ SameButOffset directive directive' := by
  cases block with
  | none =>
      cases h
      exact ⟨none, rfl, 0, rfl⟩
  | some stop =>
      have pos := some_ stop rfl
      obtain ⟨d, parsed, rfl⟩ := Option.map_eq_some_iff.mp h
      obtain ⟨o, moved⟩ := parse_offset (p.length + nameEnd + 1) (toOption_eq_some.mp parsed)
      have stop_ : p.length + stop - 1 = p.length + (stop - 1) := by omega
      refine ⟨some { d with specOffset := o }, ?_, o, rfl⟩
      rw [Option.map_some, readDirective, stop_, Nat.add_assoc, slice_append_right,
        ← Nat.add_assoc, moved]
      rfl

theorem requireSpec_sameButOffset {d d' : Option Directive} (kind : SegmentKind)
    (h : SameButOffset d d') : requireSpec kind d' = requireSpec kind d := by
  obtain ⟨offset, rfl⟩ := h
  cases d <;> rfl

/-- The block of a token lies in the text, its name before it. -/
theorem TokenAt.block_inside {kind : SegmentKind} {nameEnd : Nat} {block : Option Nat}
    (lies : TokenAt input input.length a b (.directive kind nameEnd block)) :
    ∀ stop, block = some stop → nameEnd + 2 ≤ stop ∧ stop ≤ input.length := by
  intro stop same
  subst same
  cases lies with
  | directive _ _ _ read =>
      obtain ⟨size, inside, _⟩ := readBlock_spec read
      exact ⟨size, inside⟩

section Left
variable (q : Bytes)

theorem TokenAt.text_append (lies : TokenAt p p.length a b t) : t.text (p ++ q) = t.text p := by
  cases lies with
  | literal run => exact slice_append_left q _ run.fits
  | escape | directive => rfl

theorem TokenAt.spec_append (lies : TokenAt p p.length a b t) : t.spec (p ++ q) = t.spec p := by
  cases t with
  | literal | escape => rfl
  | directive kind nameEnd block =>
      cases block with
      | none => rfl
      | some stop =>
          obtain ⟨_, within⟩ := lies.block_inside stop rfl
          have body : slice (p ++ q) (nameEnd + 1) (stop - 1) = slice p (nameEnd + 1) (stop - 1) :=
            slice_append_left q _ (by omega)
          have bound := specSize_le kind (slice p (nameEnd + 1) (stop - 1))
          rw [length_slice] at bound
          simp only [Token.spec, body]
          split
          · rw [slice_append_left q _ (by omega)]
          · rfl

theorem TokenAt.readable_append (lies : TokenAt p p.length a b t) (readable : t.Readable p)
    (depth depth' : Nat) :
    t.Readable (p ++ q) ∧
      SameButOffset (t.segment p depth).directive (t.segment (p ++ q) depth').directive := by
  cases t with
  | literal | escape => exact ⟨trivial, 0, rfl⟩
  | directive kind nameEnd block =>
      obtain ⟨directive, read, required⟩ := readable
      have same : readDirective (p ++ q) kind nameEnd block = readDirective p kind nameEnd block :=
        readDirective_append q fun stop here => (lies.block_inside stop here).2
      refine ⟨⟨directive, same.trans read, required⟩, ?_⟩
      simp only [Token.segment, same]
      exact sameButOffset_refl _

end Left

section Right
variable (p : Bytes)

theorem Token.shift_kind (n : Nat) (t : Token) : (t.shift n).kind = t.kind := by
  cases t <;> rfl

theorem Token.text_shift (t : Token) : (t.shift p.length).text (p ++ q) = t.text q := by
  cases t with
  | literal start stop => exact slice_append_right p q start stop
  | escape | directive => rfl

theorem TokenAt.spec_shift (lies : TokenAt q q.length a b t) :
    (t.shift p.length).spec (p ++ q) = t.spec q := by
  cases t with
  | literal | escape => rfl
  | directive kind nameEnd block =>
      cases block with
      | none => rfl
      | some stop =>
          obtain ⟨far, _⟩ := lies.block_inside stop rfl
          have start_ : p.length + nameEnd + 1 = p.length + (nameEnd + 1) := Nat.add_assoc _ _ _
          have stop_ : p.length + stop - 1 = p.length + (stop - 1) := by omega
          simp only [Token.shift, Option.map_some, Token.spec, start_, stop_,
            slice_append_right, Nat.add_assoc p.length (nameEnd + 1)]

theorem TokenAt.readable_shift (lies : TokenAt q q.length a b t) (readable : t.Readable q)
    (depth depth' : Nat) :
    (t.shift p.length).Readable (p ++ q) ∧
      SameButOffset (t.segment q depth).directive
        ((t.shift p.length).segment (p ++ q) depth').directive := by
  cases t with
  | literal | escape => exact ⟨trivial, 0, rfl⟩
  | directive kind nameEnd block =>
      obtain ⟨directive, read, required⟩ := readable
      have some_ : ∀ stop, block = some stop → 0 < stop := by
        intro stop here
        have far := (lies.block_inside stop here).1
        omega
      obtain ⟨directive', read', same⟩ := readDirective_shift p some_ read
      refine ⟨⟨directive', read', (requireSpec_sameButOffset kind same).trans required⟩, ?_⟩
      simp only [Token.shift, Token.segment, read, read', Option.getD_some]
      exact same

end Right

/-- A token of the first text says the same in the whole. -/
theorem alike_left (short : (p ++ q).length ≤ 65535) (lies : TokenAt p p.length a b t)
    (lies' : TokenAt (p ++ q) (p ++ q).length a' b' t) (readable : t.Readable p)
    (depth depth' : Nat) :
    t.Readable (p ++ q) ∧ Alike p (p ++ q) (t.segment p depth) (t.segment (p ++ q) depth') := by
  have size : (p ++ q).length = p.length + q.length := List.length_append
  obtain ⟨readable', padding⟩ := lies.readable_append q readable depth depth'
  exact ⟨readable', alike_of_tokens (by omega) short lies lies' readable readable' _ _ rfl
    (lies.text_append q).symm (lies.spec_append q).symm padding⟩

/-- A token of the second text says the same in the whole. -/
theorem alike_right (short : (p ++ q).length ≤ 65535) (lies : TokenAt q q.length a b t)
    (lies' : TokenAt (p ++ q) (p ++ q).length a' b' (t.shift p.length)) (readable : t.Readable q)
    (depth depth' : Nat) :
    (t.shift p.length).Readable (p ++ q) ∧
      Alike q (p ++ q) (t.segment q depth) ((t.shift p.length).segment (p ++ q) depth') := by
  have size : (p ++ q).length = p.length + q.length := List.length_append
  obtain ⟨readable', padding⟩ := lies.readable_shift p readable depth depth'
  exact ⟨readable', alike_of_tokens (by omega) short lies lies' readable readable' _ _
    (t.shift_kind p.length).symm (t.text_shift p).symm (lies.spec_shift p).symm padding⟩

end Alike

section Acceptance
variable {p q : Bytes} {ts us vs : List Token} {n : Nat}

theorem Joined.length_le (h : Joined n ts us vs) : vs.length ≤ ts.length + us.length := by
  cases h with
  | apart => simp
  | merged =>
      simp only [List.length_append, List.length_cons, List.length_map, List.length_nil]
      omega

/-- A token of the whole comes from the first text, or from the second, or is a literal run. -/
theorem Joined.mem (h : Joined n ts us vs) {v : Token} (member : v ∈ vs) :
    v ∈ ts ∨ (∃ t ∈ us, v = t.shift n) ∨ ∃ a b, v = .literal a b := by
  cases h with
  | apart =>
      obtain first | last := List.mem_append.mp member
      · exact .inl first
      · obtain ⟨t, inside, rfl⟩ := List.mem_map.mp last
        exact .inr (.inl ⟨t, inside, rfl⟩)
  | merged =>
      obtain first | rest := List.mem_append.mp member
      · exact .inl (List.mem_append_left _ first)
      · obtain rfl | last := List.mem_cons.mp rest
        · exact .inr (.inr ⟨_, _, rfl⟩)
        · obtain ⟨t, inside, rfl⟩ := List.mem_map.mp last
          exact .inr (.inl ⟨t, List.mem_cons_of_mem _ inside, rfl⟩)

theorem kinds_shift (n : Nat) (ts : List Token) :
    (ts.map (Token.shift n)).map Token.kind = ts.map Token.kind := by
  rw [List.map_map]
  exact List.map_congr_left fun t _ => Token.shift_kind n t

theorem Joined.balanced (h : Joined n ts us vs) (first : BalancedStyles (ts.map Token.kind))
    (last : BalancedStyles (us.map Token.kind)) : BalancedStyles (vs.map Token.kind) := by
  cases h with
  | apart =>
      rw [List.map_append, kinds_shift]
      exact first.append last
  | @merged ts us a b =>
      rw [List.map_append, List.map_cons, kinds_shift]
      rw [List.map_append, List.map_singleton] at first
      have front := balancedStyles_literal.mp first
      rw [List.append_nil] at front
      have whole : BalancedStyles ([] ++ .literal :: us.map Token.kind) := last
      have back := balancedStyles_literal.mp whole
      exact balancedStyles_literal.mpr (front.append back)

theorem Joined.accepts (h : Joined p.length ts us vs) (first : Accepts p { } ts)
    (last : Accepts q { } us) (few : ts.length + us.length ≤ 64)
    (readable : ∀ v ∈ vs, v.Readable (p ++ q)) : Accepts (p ++ q) { } vs := by
  refine ⟨Nat.le_trans h.length_le few, readable, ?_, .inr ?_⟩
  · intro v _
    cases v with
    | literal | escape => trivial
    | directive => rfl
  · obtain relaxed | balanced := first.styles
    · cases relaxed
    · obtain relaxed | balanced' := last.styles
      · cases relaxed
      · exact h.balanced balanced balanced'

end Acceptance

end Logrin.Pattern

namespace Logrin.Formatter.Pattern
open Logrin.Library
open Logrin.Pattern

variable {self : Pattern} {env : Env} {term : Terminal} {record : LogRecord}
  {pattern pattern' : ParsedPattern} {s s' : Segment}

/-- Segments that say the same are formatted alike. -/
theorem formatSegment_alike (formatPattern : ParsedPattern → Except Fault Bytes)
    (alike : Alike pattern.pattern pattern'.pattern s s') :
    self.formatSegment env term formatPattern s pattern record =
      self.formatSegment env term formatPattern s' pattern' record := by
  obtain ⟨kind, text, spec, padded⟩ := alike
  simp only [formatSegment, ← kind, ParsedPattern.formatLiteral, text,
    ParsedPattern.formatTimestamp, spec, ParsedPattern.formatLevel, padded,
    ParsedPattern.formatLogger, ParsedPattern.formatThreadId, formatAttribute, emitColour,
    emitLevelColour, levelColour]

theorem validateColorSpec_alike (alike : Alike pattern.pattern pattern'.pattern s s') :
    validateColorSpec pattern s = validateColorSpec pattern' s' := by
  rw [validateColorSpec, validateColorSpec, alike.kind, alike.spec]

abbrev withParsed (self : Pattern) (parsed : ParsedPattern) : Pattern :=
  { self with parsed := parsed }

theorem formatFields_withParsed (self : Pattern) (parsed : ParsedPattern)
    (formatPattern : ParsedPattern → Except Fault Bytes) (first : Bool)
    (fields : List (Sigma fun _ : Bytes => AttributeValue)) :
    (self.withParsed parsed).formatFields env formatPattern first fields =
      self.formatFields env formatPattern first fields := by
  induction fields generalizing first with
  | nil => rfl
  | cons field fields ih => simp only [formatFields, ih]

theorem formatSegment_withParsed (self : Pattern) (parsed : ParsedPattern)
    (formatPattern : ParsedPattern → Except Fault Bytes) (s : Segment) (pattern : ParsedPattern) :
    (self.withParsed parsed).formatSegment env term formatPattern s pattern record =
      self.formatSegment env term formatPattern s pattern record := by
  simp only [formatSegment, formatAllAttributes, formatFields_withParsed]
  rfl

/-- The segments of a pattern, and of the markers, are formatted without it. -/
theorem formatPattern_withParsed (self : Pattern) (parsed : ParsedPattern) (depth : Nat)
    (pattern : ParsedPattern) :
    (self.withParsed parsed).formatPattern env term record depth pattern =
      self.formatPattern env term record depth pattern := by
  induction depth generalizing pattern with
  | zero => rfl
  | succ depth ih =>
      have same : (self.withParsed parsed).formatPattern env term record depth =
          self.formatPattern env term record depth := funext ih
      simp only [formatPattern, same, formatSegment_withParsed]

def renderToken (self : Pattern) (env : Env) (term : Terminal)
    (formatPattern : ParsedPattern → Except Fault Bytes) (record : LogRecord) (input : Bytes)
    (t : Token) : Except Fault Bytes :=
  self.formatSegment env term formatPattern (t.segment input 0) ⟨[], input⟩ record

section Tokens
variable {formatPattern : ParsedPattern → Except Fault Bytes} {input p q : Bytes}
  {ts us vs : List Token}

/-- The depth of a segment and the segments around it do not matter. -/
theorem alike_depth (input : Bytes) (t : Token) (depth depth' : Nat) :
    Alike input input (t.segment input depth) (t.segment input depth') := by
  cases t <;> exact ⟨rfl, rfl, rfl, fun _ => rfl⟩

theorem concatM_segmentsFrom (segments : List Segment) (depth : Nat) :
    concatM (fun s => self.formatSegment env term formatPattern s ⟨segments, input⟩ record)
        (segmentsFrom input depth ts) =
      concatM (self.renderToken env term formatPattern record input) ts := by
  induction ts generalizing depth with
  | nil => rfl
  | cons t ts ih =>
      have same : self.formatSegment env term formatPattern (t.segment input (nest depth t.kind))
          ⟨segments, input⟩ record = self.renderToken env term formatPattern record input t :=
        formatSegment_alike formatPattern (alike_depth input t _ 0)
      simp only [segmentsFrom, concatM, ih, same]

theorem forall_segmentsFrom (segments : List Segment) (depth : Nat) :
    (∀ s ∈ segmentsFrom input depth ts, validateColorSpec ⟨segments, input⟩ s = .ok ()) ↔
      ∀ t ∈ ts, validateColorSpec ⟨[], input⟩ (t.segment input 0) = .ok () := by
  induction ts generalizing depth with
  | nil => simp [segmentsFrom]
  | cons t ts ih =>
      have same : validateColorSpec ⟨segments, input⟩ (t.segment input (nest depth t.kind)) =
          validateColorSpec ⟨[], input⟩ (t.segment input 0) :=
        validateColorSpec_alike (alike_depth input t _ 0)
      rw [segmentsFrom, List.forall_mem_cons, List.forall_mem_cons, ih, same]

theorem validateColorSpecs_segmentsFrom :
    validateColorSpecs ⟨segmentsFrom input 0 ts, input⟩ = .ok () ↔
      ∀ t ∈ ts, validateColorSpec ⟨[], input⟩ (t.segment input 0) = .ok () :=
  forM_eq_ok.trans (forall_segmentsFrom _ 0)

/-- Each token lies somewhere in the text, and can be read there. -/
def Laid (input : Bytes) (ts : List Token) : Prop :=
  ∀ t ∈ ts, t.Readable input ∧ ∃ a b, TokenAt input input.length a b t

theorem Laid.literal (laid : Laid input ts) {a b : Nat} (member : .literal a b ∈ ts) :
    TokenAt input input.length a b (.literal a b) := by
  obtain ⟨_, a', b', lies⟩ := laid _ member
  cases lies with
  | literal run => exact .literal run

theorem renderToken_literal (short : input.length ≤ 65535) {a b : Nat}
    (lies : TokenAt input input.length a b (.literal a b)) :
    self.renderToken env term formatPattern record input (.literal a b) =
      .ok (slice input a b) := by
  have stored : Stored input (.literal a b) ((Token.literal a b).segment input 0) :=
    ⟨rfl, rfl, rfl⟩
  exact lies.text_eq short stored

section Sides
variable (short : (p ++ q).length ≤ 65535) (whole : Laid (p ++ q) vs) {t : Token}
include short whole

theorem renderToken_left (laid : Laid p ts) (member : t ∈ ts) (inside : t ∈ vs) :
    self.renderToken env term formatPattern record (p ++ q) t =
      self.renderToken env term formatPattern record p t := by
  obtain ⟨readable, _, _, lies⟩ := laid t member
  obtain ⟨_, _, _, lies'⟩ := whole t inside
  exact (formatSegment_alike formatPattern (alike_left short lies lies' readable 0 0).2).symm

theorem renderToken_right (laid : Laid q us) (member : t ∈ us) (inside : t.shift p.length ∈ vs) :
    self.renderToken env term formatPattern record (p ++ q) (t.shift p.length) =
      self.renderToken env term formatPattern record q t := by
  obtain ⟨readable, _, _, lies⟩ := laid t member
  obtain ⟨_, _, _, lies'⟩ := whole _ inside
  exact (formatSegment_alike formatPattern (alike_right short lies lies' readable 0 0).2).symm

/-- The run over the seam is the run of the first text and the run of the second. -/
theorem renderToken_meet {a b : Nat} (laid : Laid p ts) (laid' : Laid q us)
    (last : .literal a p.length ∈ ts) (first : .literal 0 b ∈ us)
    (member : .literal a (p.length + b) ∈ vs) {x y : Bytes}
    (hx : self.renderToken env term formatPattern record p (.literal a p.length) = .ok x)
    (hy : self.renderToken env term formatPattern record q (.literal 0 b) = .ok y) :
    self.renderToken env term formatPattern record (p ++ q) (.literal a (p.length + b)) =
      .ok (x ++ y) := by
  have size : (p ++ q).length = p.length + q.length := List.length_append
  have lies := laid.literal last
  have starts : a ≤ p.length := Nat.le_of_lt (lies.inside (by omega)).1
  cases hx.symm.trans (renderToken_literal (by omega) lies)
  cases hy.symm.trans (renderToken_literal (by omega) (laid'.literal first))
  rw [renderToken_literal short (whole.literal member), slice_append_across q b starts]

/-- The rendering of joined tokens, from those of the two texts. -/
theorem concatM_joined (join : Joined p.length ts us vs) (laid : Laid p ts) (laid' : Laid q us)
    {x y : Bytes}
    (first : concatM (self.renderToken env term formatPattern record p) ts = .ok x)
    (last : concatM (self.renderToken env term formatPattern record q) us = .ok y) :
    concatM (self.renderToken env term formatPattern record (p ++ q)) vs = .ok (x ++ y) := by
  cases join with
  | apart =>
      refine concatM_append_ok.mpr ⟨x, y, ?_, ?_, rfl⟩
      · rw [← first]
        exact concatM_congr fun t member =>
          renderToken_left short whole laid member (List.mem_append_left _ member)
      · rw [← last, concatM_comp]
        exact concatM_congr fun t member => renderToken_right short whole laid' member
          (List.mem_append_right _ (List.mem_map_of_mem member))
  | @merged ts us a b =>
      obtain ⟨x, run, hx, hrun, rfl⟩ := concatM_append_ok.mp first
      obtain ⟨run', y, hrun', hy, rfl⟩ := concatM_cons_ok.mp last
      have meet := renderToken_meet short whole laid laid'
        (List.mem_append_right ts List.mem_cons_self) List.mem_cons_self
        (List.mem_append_right ts List.mem_cons_self) (concatM_singleton.mp hrun) hrun'
      refine concatM_append_ok.mpr ⟨x, run ++ run' ++ y, ?_,
        concatM_cons_ok.mpr ⟨_, y, meet, ?_, rfl⟩, ?_⟩
      · rw [← hx]
        exact concatM_congr fun t member => renderToken_left short whole laid
          (List.mem_append_left _ member) (List.mem_append_left _ member)
      · rw [← hy, concatM_comp]
        exact concatM_congr fun t member => renderToken_right short whole laid'
          (List.mem_cons_of_mem _ member)
          (List.mem_append_right _ (List.mem_cons_of_mem _ (List.mem_map_of_mem member)))
      · simp only [List.append_assoc]

end Sides

/-- The tokens of an accepted text lie in it. -/
theorem laid_of_tokens {config : ParseConfig} (short : input.length ≤ 65535)
    (h : tokens input = some ts) (accepts : Accepts input config ts) : Laid input ts := by
  intro t member
  obtain ⟨tiles, _⟩ := (tokens_iff_tiles (by omega) accepts.few).mp h
  exact ⟨accepts.readable t member, tiles.mem member⟩

/-- A token of the whole can be read, and says what a token of one of the texts says or is a
literal run. -/
theorem joined_alike (short : (p ++ q).length ≤ 65535) (join : Joined p.length ts us vs)
    (laid : Laid p ts) (laid' : Laid q us)
    (tiles : ∀ v ∈ vs, ∃ a b, TokenAt (p ++ q) (p ++ q).length a b v) {v : Token}
    (member : v ∈ vs) :
    v.Readable (p ++ q) ∧
      ((∃ t ∈ ts, Alike p (p ++ q) (t.segment p 0) (v.segment (p ++ q) 0)) ∨
        (∃ t ∈ us, Alike q (p ++ q) (t.segment q 0) (v.segment (p ++ q) 0)) ∨
        v.kind = .literal) := by
  obtain ⟨a, b, lies⟩ := tiles v member
  obtain first | ⟨t, last, rfl⟩ | ⟨_, _, rfl⟩ := join.mem member
  · obtain ⟨readable, _, _, lies'⟩ := laid v first
    obtain ⟨readable', alike⟩ := alike_left short lies' lies readable 0 0
    exact ⟨readable', .inl ⟨v, first, alike⟩⟩
  · obtain ⟨readable, _, _, lies'⟩ := laid' t last
    obtain ⟨readable', alike⟩ := alike_right short lies' lies readable 0 0
    exact ⟨readable', .inr (.inl ⟨t, last, alike⟩)⟩
  · exact ⟨trivial, .inr (.inr rfl)⟩

theorem formatPattern_segmentsFrom (self : Pattern) (depth : Nat) :
    self.formatPattern env term record (depth + 1) ⟨segmentsFrom input 0 ts, input⟩ =
      concatM (self.renderToken env term (self.formatPattern env term record depth) record
        input) ts :=
  concatM_segmentsFrom _ 0

end Tokens

/-- Two accepted texts make one that is accepted, of their tokens joined. -/
theorem parse_joined {p q : Bytes} {parsed parsed' : ParsedPattern}
    (hp : Logrin.Pattern.parse p { } = .ok parsed) (hq : Logrin.Pattern.parse q { } = .ok parsed')
    (few : parsed.segments.length + parsed'.segments.length ≤ 64)
    (short : (p ++ q).length ≤ 65535) (ends : ¬ EndsInLonePercent p)
    (begins : BeginsAtBoundary q) :
    ∃ ts us vs, parsed = ⟨segmentsFrom p 0 ts, p⟩ ∧ parsed' = ⟨segmentsFrom q 0 us, q⟩ ∧
      Joined p.length ts us vs ∧ Laid p ts ∧ Laid q us ∧ Laid (p ++ q) vs ∧
      Logrin.Pattern.parse (p ++ q) { } = .ok ⟨segmentsFrom (p ++ q) 0 vs, p ++ q⟩ := by
  have size : (p ++ q).length = p.length + q.length := List.length_append
  obtain ⟨ts, hts, accepts, rfl⟩ := parse_iff_accepts.mp hp
  obtain ⟨us, hus, accepts', rfl⟩ := parse_iff_accepts.mp hq
  have counts : ∀ (input : Bytes) (ts : List Token),
      (segmentsFrom input 0 ts).length = ts.length := by
    intro input ts
    rw [← List.length_map Segment.kind, segmentsFrom_kinds, List.length_map]
  rw [counts, counts] at few
  obtain ⟨vs, hvs, join⟩ :=
    tokens_append (by omega) begins ends hts hus accepts.few accepts'.few
  have laid := laid_of_tokens (by omega) hts accepts
  have laid' := laid_of_tokens (by omega) hus accepts'
  obtain ⟨tiles, _⟩ :=
    (tokens_iff_tiles (by omega) (Nat.le_trans join.length_le few)).mp hvs
  have readable : ∀ v ∈ vs, v.Readable (p ++ q) := fun v member =>
    (joined_alike short join laid laid' (fun _ => tiles.mem) member).1
  have whole := join.accepts accepts accepts' few readable
  exact ⟨ts, us, vs, rfl, rfl, join, laid, laid', laid_of_tokens short hvs whole,
    parse_iff_accepts.mpr ⟨vs, hvs, whole, rfl⟩⟩

/-- The colours of the whole are those of the two texts. -/
theorem validateColorSpecs_joined {p q : Bytes} {ts us vs : List Token}
    (short : (p ++ q).length ≤ 65535) (join : Joined p.length ts us vs) (laid : Laid p ts)
    (laid' : Laid q us) (whole : Laid (p ++ q) vs)
    (valid : validateColorSpecs ⟨segmentsFrom p 0 ts, p⟩ = .ok ())
    (valid' : validateColorSpecs ⟨segmentsFrom q 0 us, q⟩ = .ok ()) :
    validateColorSpecs ⟨segmentsFrom (p ++ q) 0 vs, p ++ q⟩ = .ok () := by
  rw [validateColorSpecs_segmentsFrom] at valid valid' ⊢
  intro v member
  obtain ⟨_, ⟨t, inside, alike⟩ | ⟨t, inside, alike⟩ | literal⟩ :=
    joined_alike short join laid laid' (fun v member => (whole v member).2) member
  · exact (validateColorSpec_alike alike).symm.trans (valid t inside)
  · exact (validateColorSpec_alike alike).symm.trans (valid' t inside)
  · rw [validateColorSpec, Token.segment_kind, literal]
    rfl

/-- Patterns compose: where the first does not end in a lone `%` and the second begins with a
byte that ends a name and is not `{`, the whole is accepted and renders as the two do. -/
theorem patterns_compose {p q : Bytes} {config : Config} {first last : Pattern}
    (hp : parse p config = .ok first) (hq : parse q config = .ok last)
    (few : first.parsed.segments.length + last.parsed.segments.length ≤ 64)
    (short : p.length + q.length ≤ 65535) (ends : ¬ EndsInLonePercent p)
    (begins : BeginsAtBoundary q) :
    ∃ whole, parse (p ++ q) config = .ok whole ∧
      ∀ (env : Env) (term : Terminal) (record : LogRecord), ∃ x y,
        first.format env term record = .ok x ∧ last.format env term record = .ok y ∧
          whole.format env term record = .ok (x ++ y) := by
  have both : (p ++ q).length ≤ 65535 := by
    rw [List.length_append]
    exact short
  obtain ⟨hparse, valid, hbefore, hafter, same⟩ := parse_eq_ok.mp hp
  obtain ⟨hparse', valid', hbefore', hafter', same'⟩ := parse_eq_ok.mp hq
  obtain ⟨ts, us, vs, hfirst, hlast, join, laid, laid', whole, joined⟩ :=
    parse_joined hparse hparse' few both ends begins
  -- the formatters differ in their patterns only
  have other : last = first.withParsed last.parsed := by
    obtain ⟨parsed, config, before, after⟩ := last
    simp only [withParsed, Pattern.mk.injEq, true_and]
    exact ⟨same'.trans same.symm, Except.ok.inj (hbefore'.symm.trans hbefore),
      Except.ok.inj (hafter'.symm.trans hafter)⟩
  rw [hfirst] at valid
  rw [hlast] at valid'
  refine ⟨first.withParsed ⟨segmentsFrom (p ++ q) 0 vs, p ++ q⟩, parse_eq_ok.mpr ⟨joined,
    validateColorSpecs_joined both join laid laid' whole valid valid', hbefore, hafter, same⟩, ?_⟩
  intro env term record
  obtain ⟨x, hx⟩ := format_ok hp env term record
  obtain ⟨y, hy⟩ := format_ok hq env term record
  refine ⟨x, y, hx, hy, ?_⟩
  rw [format, hfirst, formatPattern_segmentsFrom] at hx
  rw [format, other, formatPattern_withParsed, hlast, formatPattern_segmentsFrom] at hy
  rw [format, formatPattern_withParsed, formatPattern_segmentsFrom]
  exact concatM_joined both whole join laid laid' hx hy

/-- Literal runs meet here. -/
theorem patterns_compose_sample :
    ∃ first last whole, parse (str "%L a") { } = .ok first ∧ parse (str " b%m") { } = .ok last ∧
      parse (str "%L a" ++ str " b%m") { } = .ok whole ∧
      ∀ (env : Env) (term : Terminal) (record : LogRecord), ∃ x y,
        first.format env term record = .ok x ∧ last.format env term record = .ok y ∧
          whole.format env term record = .ok (x ++ y) := by
  obtain ⟨first, hp, two⟩ : ∃ first, parse (str "%L a") { } = .ok first ∧
      decide (first.parsed.segments.length = 2) = true := ok_of_any (by decide +kernel)
  obtain ⟨last, hq, two'⟩ : ∃ last, parse (str " b%m") { } = .ok last ∧
      decide (last.parsed.segments.length = 2) = true := ok_of_any (by decide +kernel)
  have few : first.parsed.segments.length + last.parsed.segments.length ≤ 64 := by
    rw [of_decide_eq_true two, of_decide_eq_true two']
    decide
  have ends : ¬ EndsInLonePercent (str "%L a") := by
    intro lone
    obtain ⟨_, _, _, _, percent⟩ := lone
    revert percent
    decide +kernel
  have begins : BeginsAtBoundary (str " b%m") := by
    intro c head
    have blank : (str " b%m").head? = some (ch ' ') := by decide +kernel
    rw [blank] at head
    cases head
    decide
  obtain ⟨whole, hwhole, formats⟩ :=
    patterns_compose hp hq few (by decide +kernel) ends begins
  exact ⟨first, last, whole, hp, hq, hwhole, formats⟩

end Logrin.Formatter.Pattern
