import Logrin.PatternStyling

/-!
The styling left active after a record. A text is balanced, and so are its own styles at
the end; the markers of `%A` are not checked for balance, and they leak when their last
style directive opens a style and no `%style:end` of the text follows.
-/

namespace Logrin.Formatter.Pattern
open Logrin.Library
open Logrin.Library.Overlay (Op)
open Logrin.Pattern

variable {term : Terminal} {effect : Bytes → Styling → Styling} {self : Pattern} {env : Env}
  {record : LogRecord}

def mainKinds (self : Pattern) : List SegmentKind := self.parsed.segments.map Segment.kind

def kindsOf : Option ParsedPattern → List SegmentKind
  | some marker => marker.segments.map Segment.kind
  | none => []

/-- The kinds of the prefix and then the suffix marker. -/
def markerKinds (self : Pattern) : List SegmentKind :=
  kindsOf self.prefixMarker ++ kindsOf self.suffixMarker

/-- The last style directive of the list opens a style. -/
def OpensLast (kinds : List SegmentKind) : Prop :=
  ∃ channel, (kinds.filterMap kindOp).getLast? = some (.set channel)

/-- The list closes at least as many styles as it opens. -/
def ClosesAll (kinds : List SegmentKind) : Prop :=
  kinds.countP isStyleStart ≤ kinds.count .styleEnd

/-- Nothing a marker opens can stay open at the end of a record with so many fields. -/
def Tidy (self : Pattern) (fields : Nat) : Prop :=
  fields = 0 ∨ ¬ OpensLast self.markerKinds ∨
    ∀ before after, self.mainKinds = before ++ .allAttributes :: after → .styleEnd ∈ after

/-- The operations of the kinds of a text, with those of `%A` given. -/
def kindOps (attributes : List (Op Channel)) (kind : SegmentKind) : List (Op Channel) :=
  if kind = .allAttributes then attributes else (kindOp kind).toList

theorem reduceOption_markerOutline (marker : Option ParsedPattern) :
    (markerOutline marker).reduceOption = (kindsOf marker).filterMap kindOp := by
  cases marker with
  | none => rfl
  | some m =>
      simp only [markerOutline, kindsOf, List.reduceOption, List.filterMap_map]
      rfl

theorem reduceOption_fieldsOutline (self : Pattern) (first : Bool) (fields : Nat) :
    (self.fieldsOutline first fields).reduceOption =
      (List.replicate fields (self.markerKinds.filterMap kindOp)).flatten := by
  induction fields generalizing first with
  | zero => rfl
  | succ fields ih =>
      cases first <;>
        simp [fieldsOutline, List.reduceOption_append, reduceOption_markerOutline, ih,
          markerKinds, List.replicate_succ]

theorem reduceOption_outline (self : Pattern) (fields : Nat) :
    (self.outline fields).reduceOption =
      self.mainKinds.flatMap (kindOps (self.fieldsOutline true fields).reduceOption) := by
  simp only [outline, mainKinds, List.reduceOption, List.filterMap_flatMap, List.flatMap_map]
  congr 1
  funext segment
  simp only [kindOps]
  split
  · rfl
  · cases kindOp segment.kind <;> rfl

/-- The operations of `%A` end as those of one pair of markers do. -/
theorem getLast?_fieldsOutline (self : Pattern) (fields : Nat) :
    (self.fieldsOutline true (fields + 1)).reduceOption.getLast? =
      (self.markerKinds.filterMap kindOp).getLast? := by
  rw [reduceOption_fieldsOutline, List.replicate_succ', List.flatten_append, List.getLast?_append,
    List.flatten_singleton]
  cases hlast : (self.markerKinds.filterMap kindOp).getLast? with
  | some op => rfl
  | none =>
      rw [List.getLast?_eq_none_iff.mp hlast]
      simp

/-- In a balanced list nothing is opened after the last `%style:end`. -/
theorem kindOp_of_balanced {before kinds : List SegmentKind}
    (balanced : nesting (before ++ kinds) = 0) (ends : .styleEnd ∉ kinds) :
    ∀ kind ∈ kinds, kindOp kind = none := by
  rw [nesting, List.foldl_append, foldl_nest_of_open ends] at balanced
  intro kind member
  have start : isStyleStart kind = false := by
    simpa using List.countP_eq_zero.mp (Nat.eq_zero_of_add_eq_zero_left balanced) kind member
  have other : kind ≠ .styleEnd := fun same => ends (same ▸ member)
  simp [kindOp_eq_none, isStyle, start, other]

theorem getLast?_kindOps {attributes : List (Op Channel)} {op : Op Channel}
    (last : attributes.getLast? = some op) (before after : List SegmentKind)
    (plain : ∀ kind ∈ after, kindOp kind = none) :
    ((before ++ .allAttributes :: after).flatMap (kindOps attributes)).getLast? = some op := by
  induction after using List.reverseRecOn with
  | nil =>
      rw [List.flatMap_append, List.flatMap_singleton, List.getLast?_append, kindOps, if_pos rfl,
        last, Option.some_or]
  | append_singleton after kind ih =>
      have earlier := ih fun kind member => plain kind (List.mem_append_left _ member)
      rw [← List.cons_append, ← List.append_assoc, List.flatMap_append, List.flatMap_singleton,
        List.getLast?_append, earlier]
      by_cases again : kind = .allAttributes
      · rw [kindOps, if_pos again, last, Option.some_or]
      · rw [kindOps, if_neg again, plain kind (by simp)]
        rfl

/-- Where the output ends with an open style, a marker leaves it open. -/
theorem untidy_of_opens (balanced : nesting self.mainKinds = 0) {fields : Nat} {channel : Channel}
    (last : (self.outline fields).reduceOption.getLast? = some (.set channel)) :
    ¬ self.Tidy fields := by
  intro tidy
  rw [reduceOption_outline] at last
  obtain ⟨before, kind, after, split, hlast, empty⟩ := getLast?_flatMap_eq_some.mp last
  have ends : .styleEnd ∉ after := by
    intro member
    have none := empty _ member
    simp [kindOps, kindOp] at none
  by_cases attributes : kind = .allAttributes
  · subst attributes
    rw [kindOps, if_pos rfl] at hlast
    cases fields with
    | zero => simp [fieldsOutline] at hlast
    | succ fields =>
        rw [getLast?_fieldsOutline] at hlast
        obtain none | closed | followed := tidy
        · cases none
        · exact closed ⟨channel, hlast⟩
        · exact ends (followed before after split)
  · rw [kindOps, if_neg attributes] at hlast
    have opener : kindOp kind = some (.set channel) := by
      cases hop : kindOp kind with
      | none => simp [hop] at hlast
      | some op => simpa [hop] using hlast
    have other : .styleEnd ≠ kind := by
      intro same
      rw [← same] at opener
      cases opener
    have none := kindOp_of_balanced (split ▸ balanced)
      (List.not_mem_cons_of_ne_of_not_mem other ends) kind List.mem_cons_self
    rw [none] at opener
    cases opener

/-- The output ends with an open style exactly when a marker leaves one open. -/
theorem outline_opens_iff (balanced : nesting self.mainKinds = 0) (fields : Nat) :
    (∃ channel, (self.outline fields).reduceOption.getLast? = some (.set channel)) ↔
      ¬ self.Tidy fields := by
  constructor
  · intro opens
    obtain ⟨channel, last⟩ := opens
    exact untidy_of_opens balanced last
  · intro untidy
    simp only [Tidy, not_or, not_not, not_forall] at untidy
    obtain ⟨some, ⟨channel, last⟩, before, after, split, ends⟩ := untidy
    obtain ⟨fields, rfl⟩ := Nat.exists_eq_succ_of_ne_zero some
    have plain := kindOp_of_balanced (split ▸ balanced)
      (List.not_mem_cons_of_ne_of_not_mem (by decide) ends)
    refine ⟨channel, ?_⟩
    rw [reduceOption_outline, split]
    apply getLast?_kindOps ((self.getLast?_fieldsOutline fields).trans last)
    intro kind member
    exact plain kind (List.mem_cons_of_mem _ member)

theorem styling_plain_iff (laws : term.Interprets effect) (ps : List Piece) :
    styling term effect ps = plainStyling ↔
      ¬ ∃ channel, (ps.map Piece.mark).reduceOption.getLast? = some (.set channel) := by
  rw [styling_eq laws]
  refine (Overlay.flat_eq_clean_iff Setting.channel _).trans ?_
  rw [Overlay.recent_eq_nil_iff, reduceOption_mark, List.getLast?_map]
  constructor
  · intro closed opens
    obtain ⟨channel, last⟩ := opens
    obtain ⟨op, hop, same⟩ := Option.map_eq_some_iff.mp last
    cases op with
    | set s => exact closed s hop
    | close => cases same
  · intro closed s last
    exact closed ⟨s.channel, by rw [last]; rfl⟩

/-- No styling is left active at the end of a record, and markers that open more than they
close are rejected, exactly when the markers are tidy for that many fields and close all
that they open. -/
theorem no_style_leaks_iff {input : Bytes} {config : Config} (h : parse input config = .ok self)
    (on : isColorsEnabled term config.useColours = true) (laws : term.Interprets effect)
    (env : Env) (record : LogRecord) :
    ∃ ps, self.pieces env term record = .ok ps ∧
      self.format env term record = .ok (ps.flatMap (Piece.render term)) ∧
      (styling term effect ps = plainStyling ∧
          (¬ ClosesAll self.markerKinds → ∃ e, parse input config = .error e) ↔
        self.Tidy record.fields.entries.length ∧ ClosesAll self.markerKinds) := by
  obtain ⟨ps, hps, out⟩ := pieces_of_parse h env term record
  refine ⟨ps, hps, out, ?_⟩
  have rejected : (¬ ClosesAll self.markerKinds → ∃ e, parse input config = .error e) ↔
      ClosesAll self.markerKinds := by
    constructor
    · intro reject
      apply Classical.byContradiction
      intro opens
      obtain ⟨e, he⟩ := reject opens
      rw [h] at he
      cases he
    · intro closed opens
      exact absurd closed opens
  rw [rejected]
  obtain ⟨parsed, rfl⟩ := parsed_of_parse h
  rw [styling_plain_iff laws, pieces_mark (wellFormed_of_parse h) on hps,
    outline_opens_iff (parse_balanced parsed rfl), not_not]

/-- Markers of which the prefix opens a style that neither closes. -/
def openConfig : Config where
  useColours := some true
  markers := (str "%bold[", str "]")

def oneField : LogRecord := LogRecord.default.withField (str "k") (.bool true)

theorem no_style_leaks_sample :
    ∃ self ps, parse (str "%m %bold%A%style:end") openConfig = .ok self ∧
      self.pieces default ansi oneField = .ok ps ∧
      self.format default ansi oneField = .ok (ps.flatMap (Piece.render ansi)) ∧
      (styling ansi ansiEffect ps = plainStyling ∧
          (¬ ClosesAll self.markerKinds →
            ∃ e, parse (str "%m %bold%A%style:end") openConfig = .error e) ↔
        self.Tidy oneField.fields.entries.length ∧ ClosesAll self.markerKinds) := by
  obtain ⟨self, hself, _⟩ := ok_of_any (x := parse (str "%m %bold%A%style:end") openConfig)
    (P := fun _ => true) (by decide +kernel)
  obtain ⟨ps, hps, out, iff_⟩ :=
    no_style_leaks_iff hself rfl ansi_interprets default oneField
  exact ⟨self, ps, hself, hps, out, iff_⟩

/-- The bold of the prefix marker is still active after the record. -/
theorem styles_sometimes_leak :
    ¬ ∀ (input : Bytes) (config : Config) (self : Pattern) (term : Terminal)
      (effect : Bytes → Styling → Styling) (env : Env) (record : LogRecord) (ps : List Piece),
      parse input config = .ok self → isColorsEnabled term config.useColours = true →
      term.Interprets effect → self.pieces env term record = .ok ps →
      styling term effect ps = plainStyling ∧
        (¬ ClosesAll self.markerKinds → ∃ e, parse input config = .error e) := by
  intro always
  obtain ⟨self, hself, hps⟩ := ok_of_any (x := parse (str "%A") openConfig)
    (P := fun self => (self.pieces default ansi oneField).toOption ==
      some [.style (.set .bold), .text (str "["), .text (str "k=true"), .text (str "]")])
    (by decide +kernel)
  obtain ⟨plain, _⟩ := always _ _ self ansi ansiEffect default oneField _ hself rfl
    ansi_interprets (toOption_eq_some.mp (beq_iff_eq.mp hps))
  rw [styling_eq ansi_interprets] at plain
  exact absurd (congrFun plain .bold) (by decide)

end Logrin.Formatter.Pattern
