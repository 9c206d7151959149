import Logrin.PatternFormat
import Logrin.PatternSpan

/-!
What a timestamp's format goes through before it is rendered: an offset and a length of 16
bits, a C string, and a buffer of 128 bytes.
-/

namespace Logrin.Pattern
open Logrin.Library

section Strftime
variable {env : Env} {max : Nat} {format text : Bytes} {tm : Tm}

theorem length_strftime_lt (some : 0 < max) : (env.strftime max format tm).length < max := by
  simp only [Env.strftime]
  split
  · next fits => exact fits
  · exact some

theorem strftime_whole (h : cString format = text) (fits : (env.expandTime text tm).length < max) :
    env.strftime max format tm = env.expandTime text tm := by
  simp only [Env.strftime, h]
  exact if_pos fits

end Strftime

/-- The format a specification stands for: an omitted one is the default. -/
def timestampFormat (spec : Bytes) : Bytes :=
  if spec.isEmpty then str "%Y-%m-%d %H:%M:%S" else spec

theorem timestampFormat_of_ne_nil {spec : Bytes} (some : spec ≠ []) :
    timestampFormat spec = spec := by
  simp [timestampFormat, some]

theorem formatTimestamp_eq {p : ParsedPattern} {segment : Segment} {spec : Option Bytes}
    (h : segment.spec p.pattern = .ok spec) (env : Env) (record : LogRecord) :
    p.formatTimestamp env segment record =
      .ok (if spec.getD [] = str "iso8601" then
        env.strftime 32 (str "%Y-%m-%dT%H:%M:%SZ") (env.gmtime (env.toTimeT record.timestamp))
      else env.strftime 128 (timestampFormat (spec.getD []))
        (env.localtime (env.toTimeT record.timestamp))) := by
  simp only [ParsedPattern.formatTimestamp, h, ok_bind, timestampFormat]
  by_cases empty : (spec.getD []).isEmpty
  · have other : (str "%Y-%m-%d %H:%M:%S") ≠ str "iso8601" := by decide +kernel
    have other' : ([] : Bytes) ≠ str "iso8601" := by decide +kernel
    simp only [List.isEmpty_iff.mp empty, List.isEmpty_nil, if_true, if_neg other, if_neg other']
  · simp only [empty, Bool.false_eq_true, if_false]
    split <;> rfl

namespace Token

def body (input : Bytes) : Token → Bytes
  | .directive _ nameEnd (some stop) => slice input (nameEnd + 1) (stop - 1)
  | _ => []

/-- What the parser's 16 bits for the offset and for the length keep of it. -/
def keptBody (input : Bytes) (t : Token) : Bytes :=
  match t with
  | .directive _ nameEnd (some _) =>
      (input.drop ((nameEnd + 1) % 2 ^ 16)).take ((t.body input).length % 2 ^ 16)
  | _ => []

/-- A block that reaches `strftime` as it stands in the text. -/
def Intact (input : Bytes) (t : Token) : Prop :=
  t.keptBody input = t.body input ∧ 0 ∉ t.body input

/-- The whole expansion of the format a timestamp asks for, in local time. -/
def expansion (env : Env) (record : LogRecord) (input : Bytes) (t : Token) : Bytes :=
  env.expandTime (timestampFormat (t.body input)) (env.localtime (env.toTimeT record.timestamp))

end Token

section Kept
variable {input : Bytes} {len a b : Nat} {t : Token} {segment : Segment}

theorem TokenAt.length_keptBody (short : len ≤ input.length) (lies : TokenAt input len a b t) :
    (t.keptBody input).length = (t.body input).length % 2 ^ 16 := by
  cases lies with
  | literal | escape => rfl
  | @directive nameEnd kind block _ _ name read =>
      cases block with
      | none => rfl
      | some stop =>
          have open_ := readBlock_inside read
          have start : (nameEnd + 1) % 2 ^ 16 ≤ nameEnd + 1 := Nat.mod_le _ _
          have size : (slice input (nameEnd + 1) (stop - 1)).length ≤
              input.length - (nameEnd + 1) := by
            rw [length_slice]
            exact Nat.min_le_right _ _
          have kept := Nat.mod_le (slice input (nameEnd + 1) (stop - 1)).length (2 ^ 16)
          simp only [Token.keptBody, Token.body, List.length_take, List.length_drop]
          omega

/-- The formatter sees what the parser kept. -/
theorem TokenAt.spec_kept (short : len ≤ input.length) (lies : TokenAt input len a b t)
    (stored : Stored input t segment) (stamp : segment.kind = .timestamp) :
    ∃ spec, segment.spec input = .ok spec ∧ spec.getD [] = t.keptBody input := by
  cases lies with
  | literal | escape => exact ⟨none, by rw [Segment.spec, stored.2.2], rfl⟩
  | @directive nameEnd kind block _ _ name read =>
      obtain ⟨same, _, directive⟩ := stored
      obtain rfl := same.symm.trans stamp
      cases block with
      | none => exact ⟨none, by rw [Segment.spec, ← Option.some.inj directive], rfl⟩
      | some stop =>
          obtain ⟨d, parsed, same⟩ := Option.map_eq_some_iff.mp directive
          have accepted := toOption_eq_some.mp parsed
          rw [Segment.spec, ← same]
          simp only [Directive.hasSpecification, decide_eq_true_eq, UInt16.lt_iff_toNat_lt,
            (parse_spec accepted).1, UInt16.toNat_ofNat', UInt16.toNat_zero]
          by_cases some :
              0 < specSize .timestamp (slice input (nameEnd + 1) (stop - 1)) % 2 ^ 16
          · have nonempty : 0 < specSize .timestamp (slice input (nameEnd + 1) (stop - 1)) :=
              Nat.lt_of_lt_of_le some (Nat.mod_le _ _)
            have inside : nameEnd + 1 ≤ input.length := by
              have open_ := readBlock_inside read
              omega
            rw [if_pos some, specification_wrapped accepted nonempty inside]
            exact ⟨_, rfl, rfl⟩
          · refine ⟨none, if_neg some, ?_⟩
            have zero : (Token.body input (.directive .timestamp nameEnd (.some stop))).length %
                2 ^ 16 = 0 := Nat.eq_zero_of_not_pos some
            simp only [Token.keptBody, zero, List.take_zero, Option.getD_none]

/-- A block of `n` bytes is not kept as `m` bytes, unless `n` wraps to `m`. -/
theorem cString_ne_of_length {kept format body : Bytes} {n : Nat}
    (size : kept.length = body.length % 2 ^ 16) (long : (cString format).length = n)
    (other : kept.length ≠ n % 2 ^ 16) : cString format ≠ body := by
  intro same
  rw [size, ← same, long] at other
  exact other rfl

/-- Apart from ISO 8601, only a block that is kept whole and holds no NUL is expanded. -/
theorem TokenAt.intact_of_format (short : len ≤ input.length) (lies : TokenAt input len a b t)
    (same : cString (timestampFormat (t.keptBody input)) = timestampFormat (t.body input)) :
    t.Intact input := by
  have size := lies.length_keptBody short
  have less := Nat.mod_le (t.body input).length (2 ^ 16)
  by_cases empty : t.body input = []
  · rw [empty, List.length_nil, Nat.zero_mod, List.length_eq_zero_iff] at size
    rw [Token.Intact, size, empty]
    exact ⟨rfl, List.not_mem_nil⟩
  · rw [timestampFormat_of_ne_nil empty] at same
    by_cases lost : t.keptBody input = []
    · rw [lost] at same size
      exact absurd same (cString_ne_of_length (n := 17) size (by decide +kernel) (by decide))
    · rw [timestampFormat_of_ne_nil lost] at same
      exact cString_whole (by omega) same

theorem Token.Intact.cString_format (intact : t.Intact input) :
    cString (timestampFormat (t.keptBody input)) = timestampFormat (t.body input) := by
  obtain ⟨whole, clean⟩ := intact
  rw [whole]
  by_cases empty : t.body input = []
  · rw [empty]
    decide +kernel
  · rw [timestampFormat_of_ne_nil empty]
    exact cString_eq_self_iff.mpr clean

end Kept

def InFull (p : ParsedPattern) (env : Env) (record : LogRecord) (t : Token) (segment : Segment) :
    Prop :=
  p.formatTimestamp env segment record = .ok (t.expansion env record p.pattern)

/-- `strftime` copies what is no conversion. -/
def Env.CopiesText (env : Env) : Prop := ∀ text tm, ch '%' ∉ text → env.expandTime text tm = text

/-- A platform whose expansions are short, and empty for one format only. -/
def emptyFor (format : Bytes) : Env :=
  { (default : Env) with expandTime := fun text _ => if text = format then [] else [0] }

theorem expansion_emptyFor (record : LogRecord) (input : Bytes) (t : Token) :
    t.expansion (emptyFor (timestampFormat (t.body input))) record input = [] :=
  if_pos rfl

section Full
variable {p : ParsedPattern} {env : Env} {record : LogRecord} {t : Token} {segment : Segment}
  {len a b : Nat}

theorem InFull.fits {spec : Option Bytes} (h : segment.spec p.pattern = .ok spec)
    (full : InFull p env record t segment) : (t.expansion env record p.pattern).length < 128 := by
  rw [InFull, formatTimestamp_eq h] at full
  rw [← Except.ok.inj full]
  split
  · exact Nat.lt_trans (length_strftime_lt (by decide : 0 < 32)) (by decide)
  · exact length_strftime_lt (by decide)

theorem inFull_of_intact {spec : Option Bytes} (h : segment.spec p.pattern = .ok spec)
    (kept : spec.getD [] = t.keptBody p.pattern) (custom : t.body p.pattern ≠ str "iso8601")
    (intact : t.Intact p.pattern) (fits : (t.expansion env record p.pattern).length < 128) :
    InFull p env record t segment := by
  have other : spec.getD [] ≠ str "iso8601" := by
    rw [kept, intact.1]
    exact custom
  rw [InFull, formatTimestamp_eq h, if_neg other, kept]
  exact congrArg Except.ok (strftime_whole intact.cString_format fits)

theorem intact_of_inFull {spec : Option Bytes} (short : len ≤ p.pattern.length)
    (lies : TokenAt p.pattern len a b t) (h : segment.spec p.pattern = .ok spec)
    (kept : spec.getD [] = t.keptBody p.pattern)
    (full : InFull p (emptyFor (timestampFormat (t.body p.pattern))) record t segment) :
    t.Intact p.pattern := by
  have nothing : ∀ {max format tm}, 1 < max →
      ((emptyFor (timestampFormat (t.body p.pattern))).strftime max format tm = [] ↔
        cString format = timestampFormat (t.body p.pattern)) := by
    intro max format tm room
    simp only [Env.strftime, emptyFor]
    by_cases same : cString format = timestampFormat (t.body p.pattern)
    · simp [same]
    · simp [same, room]
  rw [InFull, formatTimestamp_eq h, expansion_emptyFor, Except.ok.injEq, kept] at full
  by_cases named : t.keptBody p.pattern = str "iso8601"
  · rw [if_pos named, nothing (by decide)] at full
    have size := lies.length_keptBody short
    rw [named] at size
    have some : t.body p.pattern ≠ [] := by
      intro empty
      rw [empty] at size
      exact absurd size (by decide +kernel)
    rw [timestampFormat_of_ne_nil some] at full
    exact absurd full (cString_ne_of_length (n := 18) size (by decide +kernel) (by decide +kernel))
  · rw [if_neg named, nothing (by decide)] at full
    exact lies.intact_of_format short full

theorem expansion_of_plain {input : Bytes} (copies : env.CopiesText) (some : t.body input ≠ [])
    (plain : ch '%' ∉ t.body input) (record : LogRecord) :
    t.expansion env record input = t.body input := by
  rw [Token.expansion, timestampFormat_of_ne_nil some, copies _ _ plain]

/-- Text without conversions that is rendered in full was kept whole. -/
theorem intact_of_plain {spec : Option Bytes} (short : len ≤ p.pattern.length)
    (lies : TokenAt p.pattern len a b t) (h : segment.spec p.pattern = .ok spec)
    (kept : spec.getD [] = t.keptBody p.pattern) (copies : env.CopiesText)
    (some : t.body p.pattern ≠ []) (plain : ch '%' ∉ t.body p.pattern)
    (plain' : ch '%' ∉ t.keptBody p.pattern) (other : t.keptBody p.pattern ≠ str "iso8601")
    (full : InFull p env record t segment) : t.Intact p.pattern := by
  have size := lies.length_keptBody short
  have fits := full.fits h
  rw [expansion_of_plain copies some plain] at fits
  have same : (t.keptBody p.pattern).length = (t.body p.pattern).length := by omega
  have some' : t.keptBody p.pattern ≠ [] := by
    intro lost
    rw [lost] at same
    exact some (List.eq_nil_of_length_eq_zero same.symm)
  have clean : ch '%' ∉ cString (t.keptBody p.pattern) :=
    fun member => plain' ((List.takeWhile_prefix _).subset member)
  rw [InFull, formatTimestamp_eq h, kept, if_neg other, timestampFormat_of_ne_nil some',
    expansion_of_plain copies some plain, Except.ok.injEq, Env.strftime, copies _ _ clean] at full
  split at full
  · exact cString_whole (Nat.le_of_eq same) full
  · exact absurd full.symm some

/-- The timestamps of an accepted text: only what fits the buffer is rendered, and all of that
exactly for the blocks that reach `strftime` as they stand in the text. -/
theorem timestamps_full_iff {input : Bytes} {config : ParseConfig}
    (h : parse input config = .ok p) :
    ∃ ts, tokens input = some ts ∧ ts.length = p.segments.length ∧
      ∀ t segment, (t, segment) ∈ ts.zip p.segments → segment.kind = .timestamp →
        t.body input ≠ str "iso8601" →
        (∀ env record, InFull p env record t segment →
          (t.expansion env record input).length < 128) ∧
        ((∀ env record, (t.expansion env record input).length < 128 →
          InFull p env record t segment) ↔ t.Intact input) ∧
        ∀ env record, env.CopiesText → t.body input ≠ [] → ch '%' ∉ t.body input →
          ch '%' ∉ t.keptBody input → t.keptBody input ≠ str "iso8601" →
          (p.formatTimestamp env segment record = .ok (t.body input) ↔
            t.Intact input ∧ (t.body input).length < 128) := by
  obtain ⟨ts, hts, stored, _, few, rfl⟩ := parse_stored h
  obtain ⟨_, _, tiles⟩ := tokens_tile hts (stored.length_eq ▸ few)
  have each : List.Forall₂ (fun t segment => segment.kind = .timestamp →
      ∃ spec a b, TokenAt p.pattern (u32 p.pattern.length) a b t ∧
        segment.spec p.pattern = .ok spec ∧ spec.getD [] = t.keptBody p.pattern) ts p.segments :=
    tiles.forall₂ stored fun _ _ _ _ lies same stamp =>
      (lies.spec_kept (u32_le _) same stamp).imp fun _ both => ⟨_, _, lies, both⟩
  refine ⟨ts, hts, stored.length_eq, ?_⟩
  intro t segment member stamp custom
  obtain ⟨spec, _, _, lies, read, kept⟩ := (List.forall₂_iff_zip.mp each).2 member stamp
  have whole : t.Intact p.pattern → ∀ env record,
      (t.expansion env record p.pattern).length < 128 → InFull p env record t segment :=
    fun intact _ _ => inFull_of_intact read kept custom intact
  refine ⟨fun _ _ => InFull.fits read, ⟨?_, whole⟩, ?_⟩
  · intro full
    have fits : (t.expansion (emptyFor (timestampFormat (t.body p.pattern))) LogRecord.default
        p.pattern).length < 128 := by
      rw [expansion_emptyFor]
      decide
    exact intact_of_inFull (u32_le _) lies read kept (full _ _ fits)
  · intro env record copies some plain plain' other
    have text := expansion_of_plain copies some plain record
    rw [← text]
    constructor
    · intro full
      exact ⟨intact_of_plain (u32_le _) lies read kept copies some plain plain' other full,
        InFull.fits read full⟩
    · exact fun both => whole both.1 env record both.2

end Full

/-- A platform that expands no conversion. -/
def copyPlatform : Env := { (default : Env) with expandTime := fun text _ => text }

theorem copyPlatform_copies : copyPlatform.CopiesText := fun _ _ _ => rfl

def lettersTimestamp (n : Nat) : Bytes := str "%t\x7b" ++ letters n ++ str "\x7d"

def lettersSegment (n : Nat) : Segment where
  kind := .timestamp
  text := (0, 0)
  directive := some { specOffset := 3, specLength := .ofNat n }
  depth := 0

theorem timestamps_full_sample :
    ∃ p, parse (lettersTimestamp 127) { } = .ok p ∧
      p.formatTimestamp copyPlatform (lettersSegment 127) LogRecord.default =
        .ok (letters 127) := by
  obtain ⟨p, accepted, one⟩ : ∃ p, parse (lettersTimestamp 127) { } = .ok p ∧
      decide (p.segments = [lettersSegment 127]) = true := ok_of_any (by decide +kernel)
  have scanned : tokens (lettersTimestamp 127) = some [.directive .timestamp 2 (some 131)] := by
    decide +kernel
  have body : Token.body (lettersTimestamp 127) (.directive .timestamp 2 (some 131)) =
      letters 127 := by
    decide +kernel
  obtain ⟨ts, hts, _, each⟩ := timestamps_full_iff accepted
  obtain rfl := Option.some.inj (hts.symm.trans scanned)
  rw [of_decide_eq_true one] at each
  obtain ⟨_, _, plain⟩ := each _ _ List.mem_cons_self rfl (by rw [body]; decide +kernel)
  have whole := plain copyPlatform LogRecord.default copyPlatform_copies (by decide +kernel)
    (by decide +kernel) (by decide +kernel) (by decide +kernel)
  rw [body] at whole
  exact ⟨p, accepted, whole.mpr ⟨⟨by decide +kernel, by decide +kernel⟩, by decide +kernel⟩⟩

/-- One letter more than the buffer holds beside its terminator. -/
theorem timestamps_can_vanish :
    ¬ ∀ (input : Bytes) (config : ParseConfig) (p : ParsedPattern) (ts : List Token),
      parse input config = .ok p → tokens input = some ts →
      ∀ t segment, (t, segment) ∈ ts.zip p.segments → segment.kind = .timestamp →
        t.body input ≠ [] → t.body input ≠ str "iso8601" →
        ∀ env record, env.CopiesText → InFull p env record t segment := by
  intro always
  obtain ⟨p, accepted, one⟩ : ∃ p, parse (lettersTimestamp 128) { } = .ok p ∧
      decide (p.segments = [lettersSegment 128] ∧ p.pattern = lettersTimestamp 128) = true :=
    ok_of_any (by decide +kernel)
  have scanned : tokens (lettersTimestamp 128) = some [.directive .timestamp 2 (some 132)] := by
    decide +kernel
  obtain ⟨segments, same⟩ := of_decide_eq_true one
  have each := always _ _ _ _ accepted scanned
  rw [segments] at each
  have full := each _ _ List.mem_cons_self rfl (by decide +kernel) (by decide +kernel) copyPlatform
    LogRecord.default copyPlatform_copies
  have read : (lettersSegment 128).spec p.pattern = .ok (some (letters 128)) := by
    rw [same]
    decide +kernel
  have fits := InFull.fits read full
  rw [same] at fits
  exact absurd fits (by decide +kernel)

end Logrin.Pattern
