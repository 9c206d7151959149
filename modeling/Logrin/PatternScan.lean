import Logrin.Library.Tiling
import Logrin.PatternParser

/-!
The parser split in two: a scan that reads tokens off the text, which depends neither on
the configuration nor on the style depth, and a fold that turns the tokens into segments.
`parse_toOption` shows that `parse` is the one followed by the other, up to which error is
reported.
-/

namespace Logrin.Pattern
open Logrin.Library

/-- What the scan finds: a run of literal bytes, a `%%`, or a directive by the end of its
name and, when a block follows, the position after the block. -/
inductive Token where
  | literal (start stop : Nat)
  | escape (start : Nat)
  | directive (kind : SegmentKind) (nameEnd : Nat) (block : Option Nat)
  deriving DecidableEq

structure Cursor where
  pos : Nat
  literalStart : Nat
  inLiteral : Bool

def Cursor.start : Cursor where
  pos := 0
  literalStart := 0
  inLiteral := false

/-- The position after a token that is not literal. -/
def Cursor.after (stop : Nat) : Cursor where
  pos := stop
  literalStart := stop
  inLiteral := false

/-- The literal run that ends at `stop`. -/
def Cursor.literalRun (c : Cursor) (stop : Nat) : List Token :=
  if c.inLiteral && c.literalStart < stop then [.literal c.literalStart stop] else []

/-- The name after the `%` at `pos`, with `none` for the second byte of `%%`. -/
def readName (input : Bytes) (pos : Nat) : Option (Option SegmentKind × Nat) :=
  let (kwLen, kwKind) := tryMatchKeyword (input.drop (pos + 1))
  if 0 < kwLen then some (some kwKind, u32 (pos + 1 + kwLen))
  else
    let spec := input.getD (pos + 1) 0
    if spec = ch '%' then some (none, pos + 2)
    else (letterKind spec).map fun kind => (some kind, pos + 2)

/-- The end of the block that starts at `nameEnd`, if one does. -/
def readBlock (input : Bytes) (len nameEnd : Nat) : Option (Option Nat) :=
  if nameEnd < len && input.getD nameEnd 0 = ch '{' then
    let (ending, braceDepth) := scanBraces (slice input (nameEnd + 1) len) (nameEnd + 1) 1
    if braceDepth ≠ 0 then none else some (some ending)
  else some none

def advance (input : Bytes) (len : Nat) (c : Cursor) : Option (Cursor × List Token) :=
  if input.getD c.pos 0 ≠ ch '%' || len ≤ c.pos + 1 then
    some ({
      pos := c.pos + 1
      literalStart := if c.inLiteral then c.literalStart else c.pos
      inLiteral := true }, [])
  else
    (readName input c.pos).bind fun (name, nameEnd) =>
      match name with
      | none => some (.after nameEnd, c.literalRun c.pos ++ [.escape c.pos])
      | some kind =>
          (readBlock input len nameEnd).map fun block =>
            (.after (block.getD nameEnd),
              c.literalRun c.pos ++ [.directive kind nameEnd block])

def scanLoop (input : Bytes) (len : Nat) : Nat → Cursor → Option (Cursor × List Token)
  | 0, c => some (c, [])
  | fuel + 1, c =>
      if c.pos < len then
        (advance input len c).bind fun (c', ts) =>
          (scanLoop input len fuel c').map fun (c'', ts') => (c'', ts ++ ts')
      else some (c, [])

def tokens (input : Bytes) : Option (List Token) :=
  let len := u32 input.length
  (scanLoop input len (parseFuel len) .start).map fun (c, ts) => ts ++ c.literalRun len

structure Emitted where
  depth : UInt8
  segments : List Segment

namespace Emitted

def start : Emitted where
  depth := 0
  segments := []

def push (e : Emitted) (segment : Segment) : Option Emitted :=
  if 64 ≤ e.segments.length then none
  else some { e with segments := e.segments ++ [segment] }

end Emitted

def allowed (config : ParseConfig) (kind : SegmentKind) : Bool :=
  config.allowedSegments.isEmpty || kind ∈ config.allowedSegments

/-- The directive stored for a block, from the bytes between its braces. -/
def readDirective (input : Bytes) (kind : SegmentKind) (nameEnd : Nat) :
    Option Nat → Option (Option Directive)
  | none => some none
  | some stop =>
      (Directive.parse (slice input (nameEnd + 1) (stop - 1)) (nameEnd + 1) kind).toOption.map
        some

def Token.emit (input : Bytes) (config : ParseConfig) (e : Emitted) : Token → Option Emitted
  | .literal start stop => e.push (literalSegment start stop e.depth)
  | .escape start =>
      e.push
        { kind := .literal, text := (.ofNat (start + 1), 1), directive := none, depth := e.depth }
  | .directive kind nameEnd block =>
      if allowed config kind then
        (readDirective input kind nameEnd block).bind fun directive =>
          (requireSpec kind directive).toOption.bind fun _ =>
            (nestStyle config kind e.depth).toOption.bind fun depth =>
              { e with depth := depth }.push
                { kind := kind, text := (0, 0), directive := directive, depth := depth }
      else none

def emitAll (input : Bytes) (config : ParseConfig) (e : Emitted) (ts : List Token) :
    Option Emitted :=
  ts.foldlM (Token.emit input config) e

theorem emitAll_append (input : Bytes) (config : ParseConfig) (e : Emitted)
    (ts us : List Token) :
    emitAll input config e (ts ++ us) =
      (emitAll input config e ts).bind fun e' => emitAll input config e' us := by
  simp only [emitAll, List.foldlM_append, Option.bind_eq_bind]

@[simp] theorem emitAll_singleton (input : Bytes) (config : ParseConfig) (e : Emitted)
    (t : Token) : emitAll input config e [t] = t.emit input config e := by
  simp [emitAll]

/-- The state of the loop from a cursor and what has been emitted. -/
abbrev Scan.of (c : Cursor) (e : Emitted) : Scan where
  pos := c.pos
  literalStart := c.literalStart
  inLiteral := c.inLiteral
  depth := e.depth
  segments := e.segments

variable {input : Bytes} {config : ParseConfig} {len : Nat}

theorem push_toOption (st : Scan) (segment : Segment) :
    (st.push segment).toOption =
      ((⟨st.depth, st.segments⟩ : Emitted).push segment).map
        (Scan.of ⟨st.pos, st.literalStart, st.inLiteral⟩) := by
  simp only [Scan.push, Emitted.push, error]
  split
  · rfl
  · rfl

theorem flushLiteral_toOption (input : Bytes) (config : ParseConfig) (c : Cursor) (e : Emitted)
    (stop : Nat) :
    (flushLiteral (Scan.of c e) stop).toOption =
      (emitAll input config e (c.literalRun stop)).map (Scan.of { c with inLiteral := false }) := by
  simp only [flushLiteral, Cursor.literalRun, Scan.of]
  by_cases run : (c.inLiteral && decide (c.literalStart < stop)) = true
  · simp only [if_pos run, toOption_bind, push_toOption, emitAll_singleton, Token.emit,
      toOption_ok, Option.map_eq_bind, Option.bind_assoc, Option.bind_some, Function.comp_def]
  · simp only [if_neg run]
    rfl

theorem parseBlock_toOption (kind : SegmentKind) (nameEnd : Nat) :
    (parseBlock input len nameEnd kind).toOption =
      (readBlock input len nameEnd).bind fun block =>
        (readDirective input kind nameEnd block).map fun directive =>
          (directive, block.getD nameEnd) := by
  simp only [parseBlock, readBlock]
  split
  · split
    · rfl
    · simp only [toOption_bind, toOption_ok, Option.bind_some, readDirective,
        Option.map_eq_bind, Function.comp_def, Option.bind_assoc, Option.getD_some]
  · rfl

theorem allowed_eq_not (kind : SegmentKind) :
    allowed config kind =
      !(!config.allowedSegments.isEmpty && decide (kind ∉ config.allowedSegments)) := by
  simp [allowed]

theorem parseDirective_toOption (kind : SegmentKind) (c : Cursor) (e : Emitted)
    (hin : c.inLiteral = false) :
    (parseDirective input config len kind (Scan.of c e)).toOption =
      (readBlock input len c.pos).bind fun block =>
        (Token.emit input config e (.directive kind c.pos block)).map
          (Scan.of (.after (block.getD c.pos))) := by
  simp only [parseDirective, Token.emit, allowed_eq_not]
  by_cases refused : (!config.allowedSegments.isEmpty && kind ∉ config.allowedSegments) = true
  · simp only [if_pos refused, toOption_error]
    simp only [refused, Bool.not_true, Bool.false_eq_true, if_false, Option.map_none,
      Option.bind_fun_none]
  · simp only [if_neg refused, toOption_bind, parseBlock_toOption, push_toOption,
      Option.map_eq_bind, Function.comp_def, hin]
    simp only [Bool.not_eq_true _ ▸ refused, Bool.not_false, if_true, Option.bind_assoc,
      Option.bind_some, Cursor.after]

theorem parsePercent_toOption (c : Cursor) (e : Emitted) (hin : c.inLiteral = false) :
    (parsePercent input config len (Scan.of c e)).toOption =
      (readName input c.pos).bind fun (name, nameEnd) =>
        match name with
        | none => (Token.emit input config e (.escape c.pos)).map (Scan.of (.after nameEnd))
        | some kind =>
            (readBlock input len nameEnd).bind fun block =>
              (Token.emit input config e (.directive kind nameEnd block)).map
                (Scan.of (.after (block.getD nameEnd))) := by
  simp only [parsePercent, readName]
  split
  · exact parseDirective_toOption _ { c with pos := _ } e hin
  · split
    · simp only [parseEscape, push_toOption, hin]
      rfl
    · cases letterKind (input.getD (c.pos + 1) 0) with
      | none => rfl
      | some kind => exact parseDirective_toOption kind { c with pos := _ } e hin

theorem parseStep_toOption (c : Cursor) (e : Emitted) :
    (parseStep input config len (Scan.of c e)).toOption =
      (advance input len c).bind fun r =>
        (emitAll input config e r.2).map (Scan.of r.1) := by
  simp only [parseStep, advance]
  split
  · rfl
  · simp only [toOption_bind, flushLiteral_toOption input config]
    cases hname : readName input c.pos with
    | none =>
        cases emitAll input config e (c.literalRun c.pos) with
        | none => rfl
        | some e' =>
            simp only [Option.map_some, Option.bind_some, Option.bind_none, hname,
              parsePercent_toOption { c with inLiteral := false } e' rfl]
    | some r =>
        obtain ⟨name, nameEnd⟩ := r
        cases hflush : emitAll input config e (c.literalRun c.pos) with
        | none =>
            cases name with
            | none => simp only [Option.map_none, Option.bind_none, Option.bind_some,
                emitAll_append, hflush]
            | some kind => simp only [Option.map_none, Option.bind_none, Option.bind_some,
                emitAll_append, hflush, Option.bind_map, Function.comp_def,
                Option.bind_fun_none]
        | some e' =>
            cases name with
            | none => simp only [Option.map_some, Option.bind_some, emitAll_append, hflush,
                emitAll_singleton, hname,
                parsePercent_toOption { c with inLiteral := false } e' rfl]
            | some kind => simp only [Option.map_some, Option.bind_some, emitAll_append, hflush,
                emitAll_singleton, hname,
                parsePercent_toOption { c with inLiteral := false } e' rfl, Option.bind_map, Function.comp_def]

/-- The loop is the scan followed by the fold, on any fuel. -/
theorem whileLoop_toOption (input : Bytes) (config : ParseConfig) (len fuel : Nat) (c : Cursor)
    (e : Emitted) :
    (whileLoop (fun st => st.pos < len) (parseStep input config len) fuel (Scan.of c e)).toOption =
      (scanLoop input len fuel c).bind fun r =>
        (emitAll input config e r.2).map (Scan.of r.1) := by
  induction fuel generalizing c e with
  | zero => rfl
  | succ fuel ih =>
      simp only [whileLoop, scanLoop, decide_eq_true_eq]
      split
      · rw [toOption_bind, parseStep_toOption]
        cases advance input len c with
        | none => rfl
        | some r =>
            obtain ⟨c', ts⟩ := r
            simp only [Option.bind_some]
            cases hts : emitAll input config e ts with
            | none =>
                simp only [Option.map_none, Option.bind_none, Option.bind_map, Function.comp_def,
                  emitAll_append, hts, Option.bind_fun_none]
            | some e' =>
                simp only [Option.map_some, Option.bind_some, ih, Option.bind_map,
                  Function.comp_def, emitAll_append, hts]
      · rfl

/-- The segments of a list of tokens, with the check after the loop. -/
def build (input : Bytes) (config : ParseConfig) (ts : List Token) : Option ParsedPattern :=
  (emitAll input config .start ts).bind fun e =>
    (checkNesting config e.depth).toOption.map fun _ =>
      { segments := e.segments, pattern := input }

/-- `parse` is the scan followed by the fold, up to which error is reported. -/
theorem parse_toOption (input : Bytes) (config : ParseConfig) :
    (parse input config).toOption = (tokens input).bind (build input config) := by
  have loop := whileLoop_toOption input config (u32 input.length)
    (parseFuel (u32 input.length)) .start .start
  simp only [parse, tokens, toOption_bind, toOption_ok]
  rw [show Scan.start = Scan.of .start .start from rfl, loop]
  cases scanLoop input (u32 input.length) (parseFuel (u32 input.length)) .start with
  | none => rfl
  | some r =>
      obtain ⟨c, ts⟩ := r
      simp only [Option.bind_some, Option.map_some, build, emitAll_append]
      cases emitAll input config .start ts with
      | none => rfl
      | some e =>
          simp only [Option.map_some, Option.bind_some,
            flushLiteral_toOption input config]
          cases emitAll input config e (c.literalRun (u32 input.length)) with
          | none => rfl
          | some e' => simp only [Option.bind_some, Option.map_eq_bind, Function.comp_def]

/-- What a token can add, with the checks it passed. -/
inductive Emits (input : Bytes) (config : ParseConfig) (e : Emitted) : Token → Emitted → Prop
  | literal {start stop : Nat} (room : e.segments.length < 64) :
      Emits input config e (.literal start stop)
        { e with segments := e.segments ++ [literalSegment start stop e.depth] }
  | escape {start : Nat} (room : e.segments.length < 64) :
      Emits input config e (.escape start)
        { e with
          segments := e.segments ++ [{
            kind := .literal
            text := (.ofNat (start + 1), 1)
            directive := none
            depth := e.depth }] }
  | directive {kind : SegmentKind} {nameEnd : Nat} {block : Option Nat}
      {directive : Option Directive} {depth : UInt8} (room : e.segments.length < 64)
      (kinds : allowed config kind = true)
      (read : readDirective input kind nameEnd block = some directive)
      (spec : requireSpec kind directive = .ok ())
      (nest : nestStyle config kind e.depth = .ok depth) :
      Emits input config e (.directive kind nameEnd block)
        { depth := depth
          segments := e.segments ++ [{
            kind := kind
            text := (0, 0)
            directive := directive
            depth := depth }] }

theorem Emitted.push_eq_some {e e' : Emitted} {segment : Segment} :
    e.push segment = some e' ↔
      e.segments.length < 64 ∧ e' = { e with segments := e.segments ++ [segment] } := by
  simp only [Emitted.push]
  split
  · next full => simp [Nat.not_lt.mpr full]
  · next room => simp [Nat.lt_of_not_le room, eq_comm]

theorem emits_of_emit {e e' : Emitted} {t : Token} (h : t.emit input config e = some e') :
    Emits input config e t e' := by
  cases t with
  | literal start stop =>
      obtain ⟨room, rfl⟩ := Emitted.push_eq_some.mp h
      exact .literal room
  | escape start =>
      obtain ⟨room, rfl⟩ := Emitted.push_eq_some.mp h
      exact .escape room
  | directive kind nameEnd block =>
      simp only [Token.emit] at h
      split at h
      · next kinds =>
          obtain ⟨directive, read, h⟩ := Option.bind_eq_some_iff.mp h
          obtain ⟨_, spec, h⟩ := Option.bind_eq_some_iff.mp h
          obtain ⟨depth, nest, h⟩ := Option.bind_eq_some_iff.mp h
          obtain ⟨room, rfl⟩ := Emitted.push_eq_some.mp h
          exact .directive room kinds read (toOption_eq_some.mp spec) (toOption_eq_some.mp nest)
      · cases h

/-- What an accepted text gives: its tokens, and the segments they are turned into. -/
theorem parse_ok {p : ParsedPattern} (h : parse input config = .ok p) :
    ∃ ts e, tokens input = some ts ∧ emitAll input config .start ts = some e ∧
      checkNesting config e.depth = .ok () ∧ p = { segments := e.segments, pattern := input } := by
  have split : (tokens input).bind (build input config) = some p := by
    rw [← parse_toOption, h, toOption_ok]
  obtain ⟨ts, hts, built⟩ := Option.bind_eq_some_iff.mp split
  obtain ⟨e, emitted, checked⟩ := Option.bind_eq_some_iff.mp built
  obtain ⟨_, nested, same⟩ := Option.map_eq_some_iff.mp checked
  exact ⟨ts, e, hts, emitted, toOption_eq_some.mp nested, same.symm⟩

/-- The segment that stands for a token, up to its depth. -/
def Stored (input : Bytes) : Token → Segment → Prop
  | .literal start stop, segment =>
      segment.kind = .literal ∧ segment.text = (.ofNat start, .ofNat (stop - start)) ∧
        segment.directive = none
  | .escape start, segment =>
      segment.kind = .literal ∧ segment.text = (.ofNat (start + 1), 1) ∧ segment.directive = none
  | .directive kind nameEnd block, segment =>
      segment.kind = kind ∧ segment.text = (0, 0) ∧
        readDirective input kind nameEnd block = some segment.directive

/-- The checks a segment has passed. -/
def Segment.Checked (config : ParseConfig) (segment : Segment) : Prop :=
  (segment.kind = .literal ∨ allowed config segment.kind = true) ∧
    requireSpec segment.kind segment.directive = .ok ()

theorem Emits.stored {e e' : Emitted} {t : Token} (h : Emits input config e t e') :
    ∃ segment, e'.segments = e.segments ++ [segment] ∧ Stored input t segment ∧
      segment.Checked config ∧ e'.segments.length ≤ 64 := by
  have grown : ∀ segment : Segment, e.segments.length < 64 →
      (e.segments ++ [segment]).length ≤ 64 := by
    intro segment room
    rw [List.length_append, List.length_singleton]
    exact room
  cases h with
  | literal room => exact ⟨_, rfl, ⟨rfl, rfl, rfl⟩, ⟨Or.inl rfl, rfl⟩, grown _ room⟩
  | escape room => exact ⟨_, rfl, ⟨rfl, rfl, rfl⟩, ⟨Or.inl rfl, rfl⟩, grown _ room⟩
  | directive room kinds read spec _ =>
      exact ⟨_, rfl, ⟨rfl, rfl, read⟩, ⟨Or.inr kinds, spec⟩, grown _ room⟩

theorem emitAll_stored {e e' : Emitted} {ts : List Token} (room : e.segments.length ≤ 64)
    (h : emitAll input config e ts = some e') :
    ∃ segments, e'.segments = e.segments ++ segments ∧
      List.Forall₂ (Stored input) ts segments ∧ (∀ s ∈ segments, s.Checked config) ∧
      e'.segments.length ≤ 64 := by
  induction ts generalizing e with
  | nil =>
      cases h
      exact ⟨[], by simp, .nil, by simp, room⟩
  | cons t ts ih =>
      obtain ⟨e₁, first, rest⟩ := Option.bind_eq_some_iff.mp h
      obtain ⟨segment, grown, stored, checked, room₁⟩ := (emits_of_emit first).stored
      obtain ⟨segments, grown', stored', checked', room'⟩ := ih room₁ rest
      exact ⟨segment :: segments, by simp [grown', grown], .cons stored stored',
        List.forall_mem_cons.mpr ⟨checked, checked'⟩, room'⟩

/-- Segments correspond to tokens one by one, and there are at most 64. -/
theorem parse_stored {p : ParsedPattern} (h : parse input config = .ok p) :
    ∃ ts, tokens input = some ts ∧ List.Forall₂ (Stored input) ts p.segments ∧
      (∀ s ∈ p.segments, s.Checked config) ∧ p.segments.length ≤ 64 ∧ p.pattern = input := by
  obtain ⟨ts, e, hts, emitted, _, rfl⟩ := parse_ok h
  obtain ⟨segments, same, stored, checked, room⟩ :=
    emitAll_stored (by decide : Emitted.start.segments.length ≤ 64) emitted
  have whole : e.segments = segments := by simpa [Emitted.start] using same
  exact ⟨ts, hts, whole ▸ stored, whole ▸ checked, room, rfl⟩

end Logrin.Pattern
