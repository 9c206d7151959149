import Logrin.PatternRender

/-!
Padding as the documentation of `Alignment` gives it, and the directives that apply it. A
thread id is formatted without looking at the padding of its directive.
-/

namespace Logrin.Pattern
open Logrin.Library

/-- The content brought to a width with fills; of an odd number one more goes right. -/
def pad (alignment : Alignment) (width : Nat) (fill : UInt8) (content : Bytes) : Bytes :=
  let missing := width - content.length
  match alignment with
  | .left => content ++ List.replicate missing fill
  | .right => List.replicate missing fill ++ content
  | .center =>
      List.replicate (missing / 2) fill ++ content ++
        List.replicate (missing - missing / 2) fill
  | .none => content

section
variable {alignment : Alignment} {width : Nat} {fill : UInt8} {content : Bytes} {d : Directive}

theorem length_pad (aligned : alignment ≠ .none) :
    (pad alignment width fill content).length = max content.length width := by
  cases alignment with
  | none => exact absurd rfl aligned
  | left | right | center =>
      simp only [pad, List.length_append, List.length_replicate]
      omega

theorem infix_pad : content <:+: pad alignment width fill content := by
  cases alignment with
  | none => exact List.infix_refl content
  | left => exact (List.prefix_append content _).isInfix
  | right => exact (List.suffix_append _ content).isInfix
  | center => exact List.infix_append _ content _

/-- Nothing is filled in when the content is as wide as asked. -/
theorem pad_of_le (wide : width ≤ content.length) : pad alignment width fill content = content := by
  cases alignment with
  | none => rfl
  | left | right | center => simp [pad, Nat.sub_eq_zero_of_le wide]

theorem applyPadding_eq (aligned : d.hasPadding = true) :
    applyPadding content d = pad d.alignment d.width.toNat d.fill content := by
  simp only [applyPadding, aligned, Bool.not_true, Bool.false_or, decide_eq_true_eq]
  split
  · next wide => exact (pad_of_le wide).symm
  · cases hd : d.alignment with
    | none => simp [Directive.hasPadding, hd] at aligned
    | left | right | center => rfl

end

theorem padded_eq {segment : Segment} {d : Directive} (same : segment.directive = some d)
    (aligned : d.hasPadding = true) (content : Bytes) :
    ParsedPattern.padded segment content = pad d.alignment d.width.toNat d.fill content := by
  simp only [ParsedPattern.padded, same, aligned, if_true]
  exact applyPadding_eq aligned

/-- The text of a segment before padding: the logger's name, the level in the requested
case, or the thread id in the requested base. -/
def Segment.content (segment : Segment) (env : Env) (pattern : ParsedPattern)
    (record : LogRecord) : Except Fault Bytes := do
  let spec ← segment.spec pattern.pattern
  match segment.kind with
  | .logger => .ok record.logger
  | .level => .ok (levelToString record.level (spec.getD []))
  | .threadId =>
      if spec = some (str "hex") then .ok (str "0x" ++ hexadecimal env.threadHash.toNat)
      else .ok (decimal env.threadHash.toNat)
  | _ => .ok []

/-- The text is the content, padded as the directive says. -/
def Honours (d : Directive) (content out : Bytes) : Prop :=
  out = pad d.alignment d.width.toNat d.fill content ∧
    out.length = max content.length d.width.toNat ∧ content <:+: out

theorem honours_pad {d : Directive} (aligned : d.hasPadding = true) (content : Bytes) :
    Honours d content (pad d.alignment d.width.toNat d.fill content) :=
  ⟨rfl, length_pad (by simpa [Directive.hasPadding] using aligned), infix_pad⟩

/-- Unpadded text honours its padding exactly when it is as wide as asked. -/
theorem honours_self_iff {d : Directive} (aligned : d.hasPadding = true) (content : Bytes) :
    Honours d content content ↔ d.width.toNat ≤ content.length := by
  constructor
  · intro honours
    have length_ := honours.2.1
    omega
  · intro wide
    have padded := honours_pad aligned content
    rwa [pad_of_le wide] at padded

end Logrin.Pattern

namespace Logrin.Formatter.Pattern
open Logrin.Library
open Logrin.Pattern

variable {self : Pattern} {env : Env} {term : Terminal} {record : LogRecord}
  {formatPattern : ParsedPattern → Except Fault Bytes} {segment : Segment} {d : Directive}

/-- The segments that accept padding: two honour it, the thread id ignores it. -/
theorem formatSegment_padded (inRange : segment.InRange self.parsed.pattern)
    (padding : getSegmentCapability segment.kind = .paddingOnly ∨
      getSegmentCapability segment.kind = .specAndPadding)
    (same : segment.directive = some d) (aligned : d.hasPadding = true) :
    ∃ content, segment.content env self.parsed record = .ok content ∧
      self.formatSegment env term formatPattern segment self.parsed record =
        .ok (if segment.kind = .threadId then content
          else pad d.alignment d.width.toNat d.fill content) := by
  obtain ⟨spec, hspec⟩ := inRange.spec_ok
  simp only [Segment.content, formatSegment, hspec, ok_bind]
  cases hkind : segment.kind with
  | logger =>
      refine ⟨record.logger, rfl, ?_⟩
      simp [ParsedPattern.formatLogger, padded_eq same aligned]
  | level =>
      refine ⟨_, rfl, ?_⟩
      simp [ParsedPattern.formatLevel, hspec, padded_eq same aligned]
  | threadId =>
      refine ⟨_, (apply_ite Except.ok _ _ _).symm, ?_⟩
      simp only [ParsedPattern.formatThreadId, hspec, ok_bind, if_true]
      split <;> rfl
  | _ => simp [hkind, getSegmentCapability] at padding

/-- Padding is honoured by every directive that accepts it but `%T`, which honours it
exactly when the thread id is as wide as asked anyway. -/
theorem padding_honoured_iff {input : Bytes} {config : Config} (h : parse input config = .ok self)
    (member : segment ∈ self.parsed.segments)
    (padding : getSegmentCapability segment.kind = .paddingOnly ∨
      getSegmentCapability segment.kind = .specAndPadding)
    (same : segment.directive = some d) (aligned : d.hasPadding = true) (env : Env)
    (term : Terminal) (record : LogRecord)
    (formatPattern : ParsedPattern → Except Fault Bytes) :
    ∃ content out, segment.content env self.parsed record = .ok content ∧
      self.formatSegment env term formatPattern segment self.parsed record = .ok out ∧
      (Honours d content out ↔
        (segment.kind = .threadId → d.width.toNat ≤ content.length)) := by
  have inRange := ((wellFormed_of_parse h).renderable segment member).inRange
  obtain ⟨content, hcontent, out⟩ := formatSegment_padded inRange padding same aligned
  refine ⟨content, _, hcontent, out, ?_⟩
  by_cases thread : segment.kind = .threadId
  · rw [if_pos thread, honours_self_iff aligned]
    exact ⟨fun wide _ => wide, fun wide => wide thread⟩
  · rw [if_neg thread]
    exact iff_of_true (honours_pad aligned content) (absurd · thread)

def paddedTo (kind : SegmentKind) (alignment : Logrin.Pattern.Alignment) (width : UInt16) :
    Segment where
  kind := kind
  text := (0, 0)
  directive := some { width := width, alignment := alignment }
  depth := 0

theorem padding_honoured_sample :
    ∃ self content out, parse (str "%n\x7b<8\x7d") { } = .ok self ∧
      paddedTo .logger .left 8 ∈ self.parsed.segments ∧
      (paddedTo .logger .left 8).content default self.parsed LogRecord.default = .ok content ∧
      self.formatSegment default default (fun _ => .ok []) (paddedTo .logger .left 8) self.parsed
        LogRecord.default = .ok out ∧
      Honours { width := 8, alignment := .left } content out := by
  obtain ⟨self, hself, segments⟩ := ok_of_any (x := parse (str "%n\x7b<8\x7d") { })
    (P := fun self => self.parsed.segments = [paddedTo .logger .left 8]) (by decide +kernel)
  have member : paddedTo .logger .left 8 ∈ self.parsed.segments := by
    simp [of_decide_eq_true segments]
  obtain ⟨content, out, hcontent, hout, honours⟩ :=
    padding_honoured_iff hself member (Or.inl rfl) rfl rfl default default LogRecord.default
      fun _ => .ok []
  exact ⟨self, content, out, hself, member, hcontent, hout, honours.mpr (nofun)⟩

/-- A thread id of 15 digits is asked to take 40 places. -/
theorem padding_not_always_honoured :
    ¬ ∀ (input : Bytes) (config : Config) (self : Pattern) (segment : Segment) (d : Directive)
      (env : Env) (term : Terminal) (record : LogRecord)
      (formatPattern : ParsedPattern → Except Fault Bytes) (content out : Bytes),
      parse input config = .ok self → segment ∈ self.parsed.segments →
      getSegmentCapability segment.kind = .paddingOnly ∨
        getSegmentCapability segment.kind = .specAndPadding →
      segment.directive = some d → d.hasPadding = true →
      segment.content env self.parsed record = .ok content →
      self.formatSegment env term formatPattern segment self.parsed record = .ok out →
      Honours d content out := by
  intro always
  obtain ⟨self, hself, segments⟩ := ok_of_any (x := parse (str "%T\x7b>40\x7d") { })
    (P := fun self => self.parsed.segments = [paddedTo .threadId .right 40]) (by decide +kernel)
  have member : paddedTo .threadId .right 40 ∈ self.parsed.segments := by
    simp [of_decide_eq_true segments]
  have digits : decimal (140423671760640 : UInt64).toNat = str "140423671760640" := by
    decide +kernel
  have honours := always _ _ self _ { width := 40, alignment := .right }
    { (default : Env) with threadHash := 140423671760640 } default LogRecord.default
    (fun _ => .ok []) (str "140423671760640") (str "140423671760640") hself member (Or.inr rfl)
    rfl rfl (congrArg Except.ok digits) (congrArg Except.ok digits)
  exact absurd honours.2.1 (by decide)

end Logrin.Formatter.Pattern
