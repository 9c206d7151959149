import Logrin.PatternNesting
import Logrin.PatternTiling

/-!
What `pattern::Parse` accepts, read off the tokens of a text, and the segments it gives. The
configuration enters in two of the conditions only, so parses of one text under different
configurations can be compared.
-/

namespace Logrin.Pattern
open Logrin.Library

variable {input : Bytes} {config : ParseConfig}

/-- Style starts less `%style:end`s. -/
def difference (kinds : List SegmentKind) : Int :=
  (kinds.countP isStyleStart : Int) - kinds.count .styleEnd

/-- No `%style:end` comes when every style is closed, and all are closed at the end. -/
structure BalancedStyles (kinds : List SegmentKind) : Prop where
  matched : ∀ before after, kinds = before ++ .styleEnd :: after → difference before ≠ 0
  closed : difference kinds = 0

/-- The same about what follows a text that leaves `depth` styles open, except for its end. -/
def Matched : Nat → List SegmentKind → Prop
  | _, [] => True
  | depth, kind :: kinds => ¬ (kind = .styleEnd ∧ depth = 0) ∧ Matched (nest depth kind) kinds

section Styles
variable {depth : Nat} {kind : SegmentKind} {kinds : List SegmentKind}

theorem difference_cons (kind : SegmentKind) (kinds : List SegmentKind) :
    difference (kind :: kinds) = difference [kind] + difference kinds := by
  simp only [difference, List.countP_cons, List.count_cons, List.countP_nil, List.count_nil]
  omega

theorem nest_of_matched (h : ¬ (kind = .styleEnd ∧ depth = 0)) :
    (nest depth kind : Int) = depth + difference [kind] := by
  simp only [nest, difference, List.countP_singleton, List.count_singleton]
  cases kind <;> simp [isStyleStart] at h ⊢
  omega

theorem foldl_nest_of_matched (h : Matched depth kinds) :
    ((kinds.foldl nest depth : Nat) : Int) = depth + difference kinds := by
  induction kinds generalizing depth with
  | nil => simp [difference]
  | cons kind kinds ih =>
      obtain ⟨first, others⟩ := h
      rw [List.foldl_cons, ih others, nest_of_matched first, difference_cons kind kinds]
      omega

theorem matched_iff :
    Matched depth kinds ↔
      ∀ before after, kinds = before ++ .styleEnd :: after → depth + difference before ≠ 0 := by
  induction kinds generalizing depth with
  | nil => simp [Matched]
  | cons kind kinds ih =>
      rw [Matched]
      constructor
      · intro matched before after whole
        obtain ⟨first, others⟩ := matched
        cases before with
        | nil =>
            cases whole
            intro zero
            exact first ⟨rfl, by simpa [difference] using zero⟩
        | cons kind' before =>
            obtain ⟨rfl, rest⟩ := List.cons_eq_cons.mp whole
            have later := ih.mp others before after rest
            rw [nest_of_matched first] at later
            rw [difference_cons kind before]
            omega
      · intro all
        have first : ¬ (kind = .styleEnd ∧ depth = 0) := by
          intro both
          obtain ⟨rfl, rfl⟩ := both
          exact all [] kinds rfl rfl
        refine ⟨first, ih.mpr ?_⟩
        intro before after rest
        have later := all (kind :: before) after (by rw [rest]; rfl)
        rw [difference_cons kind before] at later
        rw [nest_of_matched first]
        omega

theorem balancedStyles_iff :
    BalancedStyles kinds ↔ Matched 0 kinds ∧ nesting kinds = 0 := by
  constructor
  · intro balanced
    have matched : Matched 0 kinds := matched_iff.mpr fun before after whole => by
      simpa using balanced.matched before after whole
    have count := foldl_nest_of_matched matched
    rw [balanced.closed] at count
    exact ⟨matched, by simpa [nesting] using count⟩
  · intro both
    obtain ⟨matched, zero⟩ := both
    have count := foldl_nest_of_matched matched
    have none : kinds.foldl nest 0 = 0 := zero
    rw [none] at count
    refine ⟨fun before after whole => ?_, by simpa using count.symm⟩
    simpa using matched_iff.mp matched before after whole

theorem matched_append {kinds' : List SegmentKind} :
    Matched depth (kinds ++ kinds') ↔
      Matched depth kinds ∧ Matched (kinds.foldl nest depth) kinds' := by
  induction kinds generalizing depth with
  | nil => simp [Matched]
  | cons kind kinds ih => simp only [List.cons_append, Matched, ih, and_assoc, List.foldl_cons]

theorem BalancedStyles.append {kinds' : List SegmentKind} (h : BalancedStyles kinds)
    (h' : BalancedStyles kinds') : BalancedStyles (kinds ++ kinds') := by
  obtain ⟨matched, closed⟩ := balancedStyles_iff.mp h
  obtain ⟨matched', closed'⟩ := balancedStyles_iff.mp h'
  have zero : kinds.foldl nest 0 = 0 := closed
  refine balancedStyles_iff.mpr ⟨matched_append.mpr ⟨matched, by rwa [zero]⟩, ?_⟩
  rw [nesting, List.foldl_append, zero]
  exact closed'

/-- Literals do not count. -/
theorem balancedStyles_literal {kinds' : List SegmentKind} :
    BalancedStyles (kinds ++ .literal :: kinds') ↔ BalancedStyles (kinds ++ kinds') := by
  have skip : ∀ depth, nest depth .literal = depth := fun _ => rfl
  simp only [balancedStyles_iff, matched_append, Matched, skip, nesting, List.foldl_append,
    List.foldl_cons, reduceCtorEq, false_and, not_false_eq_true, true_and]

theorem nesting_le_length (kinds : List SegmentKind) (depth : Nat) :
    kinds.foldl nest depth ≤ depth + kinds.length := by
  induction kinds generalizing depth with
  | nil => exact Nat.le_refl _
  | cons kind kinds ih =>
      have step := nest_le depth kind
      have rest := ih (nest depth kind)
      rw [List.foldl_cons, List.length_cons]
      omega

end Styles

namespace Token

def kind : Token → SegmentKind
  | .literal _ _ | .escape _ => .literal
  | .directive kind _ _ => kind

/-- The block of a directive can be read, and the directive has the specification it needs. -/
def Readable (input : Bytes) : Token → Prop
  | .literal _ _ | .escape _ => True
  | .directive kind nameEnd block =>
      ∃ directive, readDirective input kind nameEnd block = some directive ∧
        requireSpec kind directive = .ok ()

/-- The check against the allowed kinds, made for directives only. -/
def Permitted (config : ParseConfig) : Token → Prop
  | .literal _ _ | .escape _ => True
  | .directive kind _ _ => allowed config kind = true

def segment (input : Bytes) (depth : Nat) : Token → Segment
  | .literal start stop => literalSegment start stop (.ofNat depth)
  | .escape start =>
      { kind := .literal, text := (.ofNat (start + 1), 1), directive := none
        depth := .ofNat depth }
  | .directive kind nameEnd block =>
      { kind := kind, text := (0, 0)
        directive := (readDirective input kind nameEnd block).getD none
        depth := .ofNat depth }

end Token

def segmentsFrom (input : Bytes) (depth : Nat) : List Token → List Segment
  | [] => []
  | t :: ts =>
      t.segment input (nest depth t.kind) :: segmentsFrom input (nest depth t.kind) ts

/-- The conditions on the tokens of a text that is accepted. -/
structure Accepts (input : Bytes) (config : ParseConfig) (ts : List Token) : Prop where
  few : ts.length ≤ 64
  readable : ∀ t ∈ ts, t.Readable input
  permitted : ∀ t ∈ ts, t.Permitted config
  styles : config.relaxedStyleNesting = true ∨ BalancedStyles (ts.map Token.kind)

theorem nestStyle_eq_ok {kind : SegmentKind} {depth depth' : UInt8} (small : depth.toNat < 255) :
    nestStyle config kind depth = .ok depth' ↔
      (config.relaxedStyleNesting = true ∨ ¬ (kind = .styleEnd ∧ depth.toNat = 0)) ∧
        depth' = .ofNat (nest depth.toNat kind) := by
  have counted : ∀ {d}, nestStyle config kind depth = .ok d →
      d = .ofNat (nest depth.toNat kind) := by
    intro d h
    rw [← nestStyle_toNat h small, UInt8.ofNat_toNat]
  have zero : depth.toNat = 0 ↔ depth = 0 := UInt8.toNat_inj (b := 0)
  have succeeds : (∃ d, nestStyle config kind depth = .ok d) ↔
      (config.relaxedStyleNesting = true ∨ ¬ (kind = .styleEnd ∧ depth = 0)) := by
    simp only [nestStyle]
    split
    · next start =>
        have other : kind ≠ .styleEnd := by
          intro same
          rw [same] at start
          cases start
        simp [other]
    · split
      · next stop =>
          split
          · cases config.relaxedStyleNesting <;> simp_all [error]
          · next some => simp [some]
      · next other => simp [other]
  rw [zero, ← succeeds]
  constructor
  · intro h
    exact ⟨⟨depth', h⟩, counted h⟩
  · intro h
    obtain ⟨⟨d, hd⟩, rfl⟩ := h
    rw [hd, counted hd]

theorem checkNesting_eq_ok {depth : Nat} (small : depth < 256) :
    checkNesting config (.ofNat depth) = .ok () ↔
      config.relaxedStyleNesting = true ∨ depth = 0 := by
  have zero : UInt8.ofNat depth = 0 ↔ depth = 0 := by
    rw [← UInt8.toNat_inj, UInt8.toNat_ofNat', Nat.mod_eq_of_lt small]
    rfl
  simp only [checkNesting, ne_eq, zero]
  cases config.relaxedStyleNesting <;> simp

/-- One token: what it needs, and what it adds. -/
theorem Token.emit_eq_some {e e' : Emitted} {t : Token} (small : e.depth.toNat < 255) :
    t.emit input config e = some e' ↔
      e.segments.length < 64 ∧ t.Readable input ∧ t.Permitted config ∧
        (config.relaxedStyleNesting = true ∨ ¬ (t.kind = .styleEnd ∧ e.depth.toNat = 0)) ∧
        e' = ⟨.ofNat (nest e.depth.toNat t.kind),
          e.segments ++ [t.segment input (nest e.depth.toNat t.kind)]⟩ := by
  cases t with
  | literal | escape =>
      have same : nest e.depth.toNat .literal = e.depth.toNat := rfl
      simp [Token.emit, Emitted.push_eq_some, Token.Readable, Token.Permitted, Token.kind,
        Token.segment, same, literalSegment]
  | directive kind nameEnd block =>
      constructor
      · intro h
        cases emits_of_emit h with
        | directive room kinds read spec hnest =>
            obtain ⟨styles, rfl⟩ := (nestStyle_eq_ok small).mp hnest
            refine ⟨room, ⟨_, read, spec⟩, kinds, styles, ?_⟩
            simp only [Token.segment, Token.kind, read, Option.getD_some]
      · intro h
        obtain ⟨room, ⟨directive, read, spec⟩, kinds, styles, rfl⟩ := h
        have nested : nestStyle config kind e.depth = .ok (.ofNat (nest e.depth.toNat kind)) :=
          (nestStyle_eq_ok small).mpr ⟨styles, rfl⟩
        have allowed_ : allowed config kind = true := kinds
        simp only [Token.emit, Token.segment, Token.kind, allowed_, if_true, read, spec, nested,
          toOption_ok, Option.bind_some, Option.getD_some]
        exact Emitted.push_eq_some.mpr ⟨room, rfl⟩

theorem emitAll_eq_some {e e' : Emitted} {ts : List Token}
    (counted : e.depth.toNat ≤ e.segments.length) (room : e.segments.length ≤ 64) :
    emitAll input config e ts = some e' ↔
      e.segments.length + ts.length ≤ 64 ∧ (∀ t ∈ ts, t.Readable input) ∧
        (∀ t ∈ ts, t.Permitted config) ∧
        (config.relaxedStyleNesting = true ∨ Matched e.depth.toNat (ts.map Token.kind)) ∧
        e' = ⟨.ofNat ((ts.map Token.kind).foldl nest e.depth.toNat),
          e.segments ++ segmentsFrom input e.depth.toNat ts⟩ := by
  induction ts generalizing e with
  | nil =>
      have same : (⟨.ofNat e.depth.toNat, e.segments ++ []⟩ : Emitted) = e := by
        rw [UInt8.ofNat_toNat, List.append_nil]
      simp only [List.map_nil, List.foldl_nil, segmentsFrom, same]
      constructor
      · intro h
        cases h
        exact ⟨room, by simp, by simp, .inr trivial, rfl⟩
      · intro h
        obtain ⟨_, _, _, _, rfl⟩ := h
        rfl
  | cons t ts ih =>
      have split : emitAll input config e (t :: ts) =
          (t.emit input config e).bind fun e₁ => emitAll input config e₁ ts := rfl
      simp only [split, Option.bind_eq_some_iff, Token.emit_eq_some (by omega : e.depth.toNat < 255),
        List.forall_mem_cons, List.map_cons, Matched, List.foldl_cons, segmentsFrom,
        List.length_cons]
      have step := nest_le e.depth.toNat t.kind
      have depth : (UInt8.ofNat (nest e.depth.toNat t.kind)).toNat = nest e.depth.toNat t.kind := by
        rw [UInt8.toNat_ofNat', Nat.mod_eq_of_lt (by omega)]
      have longer : (e.segments ++ [t.segment input (nest e.depth.toNat t.kind)]).length =
          e.segments.length + 1 := by
        rw [List.length_append, List.length_singleton]
      have rest := ih (e := ⟨.ofNat (nest e.depth.toNat t.kind),
        e.segments ++ [t.segment input (nest e.depth.toNat t.kind)]⟩)
      simp only [depth, longer, List.append_assoc, List.singleton_append] at rest
      constructor
      · intro h
        obtain ⟨e₁, ⟨space, readable, permitted, style, rfl⟩, h⟩ := h
        obtain ⟨few, readables, permitteds, styles, rfl⟩ := (rest (by omega) space).mp h
        refine ⟨by omega, ⟨readable, readables⟩, ⟨permitted, permitteds⟩, ?_, rfl⟩
        obtain relaxed | style := style
        · exact .inl relaxed
        · exact styles.imp id fun matched => ⟨style, matched⟩
      · intro h
        obtain ⟨few, ⟨readable, readables⟩, ⟨permitted, permitteds⟩, styles, rfl⟩ := h
        refine ⟨_, ⟨by omega, readable, permitted, styles.imp id fun both => both.1, rfl⟩, ?_⟩
        exact (rest (by omega) (by omega)).mpr
          ⟨by omega, readables, permitteds, styles.imp id fun both => both.2, rfl⟩

/-- With few segments the check after the loop sees the nesting itself. -/
theorem nesting_small {ts : List Token} (few : ts.length ≤ 64) :
    nesting (ts.map Token.kind) < 256 := by
  have bound := nesting_le_length (ts.map Token.kind) 0
  rw [List.length_map] at bound
  exact Nat.lt_of_le_of_lt bound (by omega)

theorem build_eq_some {ts : List Token} {p : ParsedPattern} :
    build input config ts = some p ↔
      Accepts input config ts ∧ p = ⟨segmentsFrom input 0 ts, input⟩ := by
  have emitted : ∀ e, emitAll input config .start ts = some e ↔
      0 + ts.length ≤ 64 ∧ (∀ t ∈ ts, t.Readable input) ∧ (∀ t ∈ ts, t.Permitted config) ∧
        (config.relaxedStyleNesting = true ∨ Matched 0 (ts.map Token.kind)) ∧
        e = ⟨.ofNat (nesting (ts.map Token.kind)), segmentsFrom input 0 ts⟩ :=
    fun e => emitAll_eq_some (Nat.le_refl 0) (Nat.zero_le 64)
  simp only [build, Option.bind_eq_some_iff, Option.map_eq_some_iff, toOption_eq_some, emitted]
  constructor
  · intro h
    obtain ⟨_, ⟨few, readable, permitted, styles, rfl⟩, _, checked, rfl⟩ := h
    have few : ts.length ≤ 64 := by omega
    refine ⟨⟨few, readable, permitted, ?_⟩, rfl⟩
    obtain relaxed | closed := (checkNesting_eq_ok (nesting_small few)).mp checked
    · exact .inl relaxed
    · exact styles.imp id fun matched => balancedStyles_iff.mpr ⟨matched, closed⟩
  · intro h
    obtain ⟨⟨few, readable, permitted, styles⟩, rfl⟩ := h
    have both := styles.imp id balancedStyles_iff.mp
    refine ⟨_, ⟨by omega, readable, permitted, both.imp id fun both => both.1, rfl⟩, (), ?_, rfl⟩
    exact (checkNesting_eq_ok (nesting_small few)).mpr (both.imp id fun both => both.2)

/-- What `parse` accepts and returns. -/
theorem parse_iff_accepts {p : ParsedPattern} :
    parse input config = .ok p ↔
      ∃ ts, tokens input = some ts ∧ Accepts input config ts ∧
        p = ⟨segmentsFrom input 0 ts, input⟩ := by
  rw [← toOption_eq_some, parse_toOption, Option.bind_eq_some_iff]
  simp only [build_eq_some]

section Segments
variable {ts : List Token} {p : ParsedPattern}

@[simp] theorem Token.segment_kind (depth : Nat) (t : Token) :
    (t.segment input depth).kind = t.kind := by
  cases t <;> rfl

@[simp] theorem Token.segment_depth (depth : Nat) (t : Token) :
    (t.segment input depth).depth = .ofNat depth := by
  cases t <;> rfl

theorem segmentsFrom_kinds (depth : Nat) (ts : List Token) :
    (segmentsFrom input depth ts).map Segment.kind = ts.map Token.kind := by
  induction ts generalizing depth with
  | nil => rfl
  | cons t ts ih => rw [segmentsFrom, List.map_cons, List.map_cons, ih, Token.segment_kind]

/-- Each depth is the nesting of the kinds up to and including its segment. -/
theorem segmentsFrom_depth (depth : Nat) (ts : List Token) (i : Nat)
    (hi : i < (segmentsFrom input depth ts).length) :
    (segmentsFrom input depth ts)[i].depth =
      .ofNat ((((segmentsFrom input depth ts).take (i + 1)).map Segment.kind).foldl nest depth) := by
  induction ts generalizing depth i with
  | nil => cases hi
  | cons t ts ih =>
      cases i with
      | zero => simp [segmentsFrom]
      | succ i => simpa [segmentsFrom] using ih _ i (Nat.lt_of_succ_lt_succ hi)

def DepthsCounted (segments : List Segment) : Prop :=
  ∀ i (hi : i < segments.length),
    segments[i].depth.toNat = nesting ((segments.take (i + 1)).map Segment.kind)

theorem parse_depthsCounted (h : parse input config = .ok p) : DepthsCounted p.segments := by
  obtain ⟨ts, _, accepts, rfl⟩ := parse_iff_accepts.mp h
  intro i hi
  have bound := nesting_le_length
    (((segmentsFrom input 0 ts).take (i + 1)).map Segment.kind) 0
  have few : (segmentsFrom input 0 ts).length ≤ 64 := by
    rw [← List.length_map Segment.kind, segmentsFrom_kinds, List.length_map]
    exact accepts.few
  have shorter : (((segmentsFrom input 0 ts).take (i + 1)).map Segment.kind).length ≤ 64 := by
    rw [List.length_map]
    exact Nat.le_trans (List.length_take_le' _ _) few
  rw [segmentsFrom_depth, UInt8.toNat_ofNat']
  exact Nat.mod_eq_of_lt (by omega)

theorem accepts_strict_iff {kinds : List SegmentKind} :
    Accepts input { allowedSegments := kinds } ts ↔
      Accepts input { allowedSegments := kinds, relaxedStyleNesting := true } ts ∧
        BalancedStyles (ts.map Token.kind) := by
  constructor
  · intro accepts
    obtain ⟨few, readable, permitted, relaxed | balanced⟩ := accepts
    · cases relaxed
    · exact ⟨⟨few, readable, permitted, .inl rfl⟩, balanced⟩
  · intro both
    obtain ⟨⟨few, readable, permitted, _⟩, balanced⟩ := both
    exact ⟨few, readable, permitted, .inr balanced⟩

/-- The strict parser accepts the texts that the relaxed one accepts with balanced styles, and
gives the same segments. In both modes the depths are counted without wrapping. -/
theorem strict_iff_relaxed_balanced (input : Bytes) (kinds : List SegmentKind) :
    (∀ p, parse input { allowedSegments := kinds, relaxedStyleNesting := false } = .ok p ↔
      parse input { allowedSegments := kinds, relaxedStyleNesting := true } = .ok p ∧
        BalancedStyles (p.segments.map Segment.kind)) ∧
    ∀ relaxed p,
      parse input { allowedSegments := kinds, relaxedStyleNesting := relaxed } = .ok p →
        DepthsCounted p.segments := by
  refine ⟨?_, fun _ _ accepted => parse_depthsCounted accepted⟩
  intro p
  simp only [parse_iff_accepts]
  constructor
  · intro strict
    obtain ⟨ts, hts, accepts, rfl⟩ := strict
    obtain ⟨relaxed, balanced⟩ := accepts_strict_iff.mp accepts
    exact ⟨⟨ts, hts, relaxed, rfl⟩, by rwa [segmentsFrom_kinds]⟩
  · intro both
    obtain ⟨⟨ts, hts, relaxed, rfl⟩, balanced⟩ := both
    rw [segmentsFrom_kinds] at balanced
    exact ⟨ts, hts, accepts_strict_iff.mpr ⟨relaxed, balanced⟩, rfl⟩

end Segments

section Filter
variable {ts : List Token} {kinds : List SegmentKind} {relaxed : Bool}

theorem readName_kind {pos nameEnd : Nat} {kind : SegmentKind}
    (h : readName input pos = some (some kind, nameEnd)) : kind ≠ .literal := by
  have letters : ∀ c, letterKind c ≠ some .literal := by
    exact forall_byte (by decide +kernel)
  have keywords : ∀ kw ∈ kKeywords, kw.2 ≠ .literal := by decide
  simp only [readName] at h
  split at h
  · next found =>
      obtain ⟨name, mem, _⟩ := tryMatchKeyword_spec found
      simp only [Option.some.injEq, Prod.mk.injEq] at h
      rw [← h.1]
      exact keywords _ mem
  · split at h
    · cases h
    · obtain ⟨_, letter, same⟩ := Option.map_eq_some_iff.mp h
      simp only [Prod.mk.injEq, Option.some.injEq] at same
      rw [← same.1]
      intro literal
      rw [literal] at letter
      exact letters _ letter

/-- Directives are not literals. -/
theorem tokens_directive {kind : SegmentKind} {nameEnd : Nat} {block : Option Nat}
    (h : tokens input = some ts) (few : ts.length ≤ 64)
    (member : .directive kind nameEnd block ∈ ts) : kind ≠ .literal := by
  obtain ⟨_, _, tiles⟩ := tokens_tile h few
  obtain ⟨_, _, at_⟩ := tiles.mem member
  cases at_ with
  | directive _ _ name _ => exact readName_kind name

theorem allowed_of_some (some_ : kinds ≠ []) (kind : SegmentKind) :
    allowed { allowedSegments := kinds, relaxedStyleNesting := relaxed } kind = true ↔
      kind ∈ kinds := by
  simp [allowed, some_]

/-- Allowed kinds filter the texts whose directives have other kinds. -/
theorem accepts_filtered_iff (h : tokens input = some ts) (some_ : kinds ≠ []) :
    Accepts input { allowedSegments := kinds, relaxedStyleNesting := relaxed } ts ↔
      Accepts input { relaxedStyleNesting := relaxed } ts ∧
        ∀ kind ∈ ts.map Token.kind, kind = .literal ∨ kind ∈ kinds := by
  constructor
  · intro accepts
    obtain ⟨few, readable, permitted, styles⟩ := accepts
    refine ⟨⟨few, readable, ?_, styles⟩, ?_⟩
    · intro t _
      cases t with
      | literal | escape => trivial
      | directive => rfl
    · simp only [List.mem_map, forall_exists_index, and_imp]
      intro kind t member same
      subst same
      cases t with
      | literal | escape => exact .inl rfl
      | directive kind nameEnd block =>
          exact .inr ((allowed_of_some some_ kind).mp (permitted _ member))
  · intro both
    obtain ⟨⟨few, readable, _, styles⟩, kept⟩ := both
    refine ⟨few, readable, ?_, styles⟩
    intro t member
    cases t with
    | literal | escape => trivial
    | directive kind nameEnd block =>
        obtain literal | inside := kept kind (List.mem_map.mpr ⟨_, member, rfl⟩)
        · exact absurd literal (tokens_directive h few member)
        · exact (allowed_of_some some_ kind).mpr inside

/-- The result is the unrestricted one, kept when all its kinds are allowed. -/
def FiltersKinds (input : Bytes) (kinds : List SegmentKind) (relaxed : Bool) : Prop :=
  ∀ p, parse input { allowedSegments := kinds, relaxedStyleNesting := relaxed } = .ok p ↔
    parse input { relaxedStyleNesting := relaxed } = .ok p ∧ ∀ s ∈ p.segments, s.kind ∈ kinds

/-- A text with literal bytes or `%%` that is accepted although literals are not allowed. -/
def LiteralPasses (input : Bytes) (kinds : List SegmentKind) (relaxed : Bool) : Prop :=
  .literal ∉ kinds ∧ ∃ ts, tokens input = some ts ∧ .literal ∈ ts.map Token.kind ∧
    Accepts input { allowedSegments := kinds, relaxedStyleNesting := relaxed } ts

/-- Allowed kinds filter the result exactly when no literal passes unchecked. -/
theorem allowed_segments_filter_iff (input : Bytes) {kinds : List SegmentKind}
    (some_ : kinds ≠ []) (relaxed : Bool) :
    FiltersKinds input kinds relaxed ↔ ¬ LiteralPasses input kinds relaxed := by
  constructor
  · intro filters passes
    obtain ⟨refused, ts, hts, literal, accepts⟩ := passes
    have accepted := parse_iff_accepts.mpr ⟨ts, hts, accepts, rfl⟩
    obtain ⟨_, kept⟩ := (filters _).mp accepted
    rw [← segmentsFrom_kinds 0] at literal
    obtain ⟨s, member, same⟩ := List.mem_map.mp literal
    exact refused (same ▸ kept s member)
  · intro checked p
    simp only [parse_iff_accepts]
    constructor
    · intro restricted
      obtain ⟨ts, hts, accepts, rfl⟩ := restricted
      obtain ⟨free, kept⟩ := (accepts_filtered_iff hts some_).mp accepts
      refine ⟨⟨ts, hts, free, rfl⟩, ?_⟩
      intro s member
      have inside : s.kind ∈ ts.map Token.kind := by
        rw [← segmentsFrom_kinds 0]
        exact List.mem_map_of_mem member
      obtain literal | inside_ := kept _ inside
      · apply Decidable.byContradiction
        intro refused
        rw [literal] at refused inside
        exact checked ⟨refused, ts, hts, inside, accepts⟩
      · exact inside_
    · intro both
      obtain ⟨⟨ts, hts, free, rfl⟩, kept⟩ := both
      refine ⟨ts, hts, (accepts_filtered_iff hts some_).mpr ⟨free, ?_⟩, rfl⟩
      intro kind member
      rw [← segmentsFrom_kinds 0] at member
      obtain ⟨s, inside, rfl⟩ := List.mem_map.mp member
      exact .inr (kept s inside)

theorem allowed_segments_filter_sample : FiltersKinds (str "%L") [.level] false := by
  apply (allowed_segments_filter_iff (str "%L") (by decide) false).mpr
  intro passes
  obtain ⟨_, ts, hts, literal, _⟩ := passes
  have read : tokens (str "%L") = some [.directive .level 2 none] := by decide +kernel
  obtain rfl := Option.some.inj (hts.symm.trans read)
  revert literal
  decide

theorem literals_can_pass :
    ¬ ∀ input kinds relaxed, kinds ≠ [] → FiltersKinds input kinds relaxed := by
  intro always
  obtain ⟨p, accepted, literal⟩ :
      ∃ p, parse (str "a") { allowedSegments := [.level], relaxedStyleNesting := false } = .ok p ∧
        decide (∃ s ∈ p.segments, s.kind = .literal) = true :=
    ok_of_any (by decide +kernel)
  obtain ⟨s, member, same⟩ := of_decide_eq_true literal
  have kept := ((always _ _ _ (by decide) p).mp accepted).2 s member
  rw [same] at kept
  revert kept
  decide

end Filter

end Logrin.Pattern
