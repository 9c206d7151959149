import Logrin.PatternSeam

/-!
The language of patterns. A pattern is a list of items; `print` writes it down. Which texts
begin with an item depends on what follows it, as the scan looks ahead: a keyword is read
before a letter, a name ends at a boundary, and a `{` after a name opens its block.
-/

namespace Logrin.Pattern
open Logrin.Library

/-- How a kind is written after `%`. -/
def SegmentKind.name : SegmentKind → Bytes
  | .literal => []
  | .timestamp => str "t"
  | .level => str "L"
  | .message => str "m"
  | .logger => str "n"
  | .file => str "f"
  | .functionName => str "F"
  | .lineNum => str "l"
  | .columnNum => str "c"
  | .threadId => str "T"
  | .allAttributes => str "A"
  | .attribute => str "X"
  | .foregroundColorStart => str "fg"
  | .backgroundColorStart => str "bg"
  | .levelColorStart => str "levelColor"
  | .bold => str "bold"
  | .dim => str "dim"
  | .italic => str "italic"
  | .underline => str "underline"
  | .strikethrough => str "strikethrough"
  | .styleEnd => str "style:end"

/-- A piece of a pattern: text, `%%`, or a directive with or without a block. -/
inductive Item where
  | literal (text : Bytes)
  | percent
  | directive (kind : SegmentKind) (block : Option Bytes)
  deriving DecidableEq

def printBlock : Option Bytes → Bytes
  | none => []
  | some body => ch '{' :: body ++ [ch '}']

/-- The text begins with the keyword of the kind, and a word ends there. -/
def KeywordAt (kind : SegmentKind) (text : Bytes) : Prop :=
  (kind.name, kind) ∈ kKeywords ∧ kind.name <+: text ∧
    isWordBoundary text kind.name.length = true

/-- What may follow the name of a kind: a keyword has to end there, and a letter must not begin
a keyword. -/
def NameStands (kind : SegmentKind) (rest : Bytes) : Prop :=
  KeywordAt kind (kind.name ++ rest) ∨
    kind.name.length = 1 ∧ ∀ other, ¬ KeywordAt other (kind.name ++ rest)

namespace Item

def isLiteral : Item → Bool
  | .literal _ => true
  | .percent | .directive _ _ => false

def kind : Item → SegmentKind
  | .literal _ | .percent => .literal
  | .directive kind _ => kind

def print : Item → Bytes
  | .literal text => text
  | .percent => [ch '%', ch '%']
  | .directive kind block => ch '%' :: kind.name ++ printBlock block

/-- A text that is the item followed by `rest` is read as beginning with the item. -/
def Stands (rest : Bytes) : Item → Prop
  | .literal text =>
      text ≠ [] ∧ ∀ j < text.length, text.getD j 0 = ch '%' → j + 1 = text.length ∧ rest = []
  | .percent => True
  | .directive kind none => NameStands kind rest ∧ rest.head? ≠ some (ch '{')
  | .directive kind (some body) =>
      NameStands kind (printBlock (some body) ++ rest) ∧ Balances (printBlock (some body))

def token (a : Nat) : Item → Token
  | .literal text => .literal a (a + text.length)
  | .percent => .escape a
  | .directive kind block =>
      .directive kind (a + 1 + kind.name.length)
        (block.map fun body => a + 1 + kind.name.length + (body.length + 2))

end Item

def print (items : List Item) : Bytes := items.flatMap Item.print

/-- The items can be read off one after the other. -/
def StandAll : List Item → Prop
  | [] => True
  | item :: items => item.Stands (print items) ∧ StandAll items

/-- A pattern as it is read: no two literals next to each other. -/
structure WellFormed (items : List Item) : Prop where
  stand : StandAll items
  apart : items.IsChain fun x y => ¬ (x.isLiteral ∧ y.isLiteral)

def lay (a : Nat) : List Item → List Token
  | [] => []
  | item :: items => item.token a :: lay (a + item.print.length) items

variable {input text rest : Bytes} {kind : SegmentKind} {pos nameEnd a b : Nat}

section Names

theorem keyword_name : ∀ kw ∈ kKeywords, kw.1 = kw.2.name := by decide +kernel

theorem keywords_prefix_free : ∀ kw ∈ kKeywords, ∀ kw' ∈ kKeywords, kw.1 <+: kw'.1 → kw = kw' := by
  decide +kernel

theorem letter_name (c : UInt8) : ∀ kind, letterKind c = some kind → kind.name = [c] := by
  revert c
  apply forall_byte
  decide +kernel

theorem name_letter (kind : SegmentKind) (one : kind.name.length = 1) :
    letterKind (kind.name.getD 0 0) = some kind ∧ kind.name.getD 0 0 ≠ ch '%' := by
  revert one
  cases kind <;> decide +kernel

/-- Only one keyword can be read off a text. -/
theorem KeywordAt.matched (h : KeywordAt kind text) :
    tryMatchKeyword text = (kind.name.length, kind) := by
  obtain ⟨mem, pre, boundary⟩ := h
  simp only [tryMatchKeyword]
  split
  · next kw found =>
      have member := List.mem_of_find?_eq_some found
      have matched := List.find?_some found
      simp only [Bool.and_eq_true, List.isPrefixOf_iff_prefix] at matched
      have same : kw = (kind.name, kind) := by
        obtain shorter | longer := Nat.le_total kw.1.length kind.name.length
        · exact keywords_prefix_free _ member _ mem
            (List.prefix_of_prefix_length_le matched.1 pre shorter)
        · exact (keywords_prefix_free _ mem _ member
            (List.prefix_of_prefix_length_le pre matched.1 longer)).symm
      rw [same]
  · next absent =>
      have refused := List.find?_eq_none.mp absent _ mem
      simp [pre, boundary] at refused

theorem keywordAt_of_match (h : 0 < (tryMatchKeyword text).1) :
    KeywordAt (tryMatchKeyword text).2 text := by
  simp only [tryMatchKeyword] at h ⊢
  split at h
  · next kw hit =>
      have member := List.mem_of_find?_eq_some hit
      have matched := List.find?_some hit
      simp only [Bool.and_eq_true, List.isPrefixOf_iff_prefix] at matched
      have name := keyword_name kw member
      simp only
      exact ⟨name ▸ member, name ▸ matched.1, name ▸ matched.2⟩
  · cases h

theorem KeywordAt.found (h : KeywordAt kind text) : 0 < (tryMatchKeyword text).1 := by
  have filled : ∀ kw ∈ kKeywords, 0 < kw.1.length := by decide +kernel
  rw [h.matched]
  exact filled _ h.1

theorem head_drop {n : Nat} (s : Bytes) (h : n < s.length) :
    s.drop n = s.getD n 0 :: s.drop (n + 1) := by
  rw [List.drop_eq_getElem_cons h, List.getD_eq_getElem?_getD, List.getElem?_eq_getElem h,
    Option.getD_some]

/-- A name is read where it is written and may stand. -/
theorem readName_iff (short : input.length < 2 ^ 32) (more : pos + 1 < input.length) :
    readName input pos = some (some kind, nameEnd) ↔
      ∃ rest, input.drop (pos + 1) = kind.name ++ rest ∧ NameStands kind rest ∧
        nameEnd = pos + 1 + kind.name.length := by
  constructor
  · intro h
    simp only [readName] at h
    split at h
    · next found =>
        have keyword := keywordAt_of_match found
        rw [keyword.matched] at h
        obtain ⟨rest, whole⟩ := keyword.2.1
        have fits := congrArg List.length whole
        rw [List.length_append, List.length_drop] at fits
        rw [u32_of_lt (by omega)] at h
        simp only [Option.some.injEq, Prod.mk.injEq] at h
        obtain ⟨rfl, rfl⟩ := h
        refine ⟨rest, whole.symm, .inl ?_, rfl⟩
        rw [whole]
        exact keyword
    · next absent =>
        split at h
        · cases h
        · obtain ⟨_, letter, same⟩ := Option.map_eq_some_iff.mp h
          simp only [Prod.mk.injEq, Option.some.injEq] at same
          obtain ⟨rfl, rfl⟩ := same
          have name := letter_name _ _ letter
          have whole := head_drop input more
          refine ⟨input.drop (pos + 2), by rw [whole, name]; rfl, .inr ⟨by rw [name]; rfl, ?_⟩,
            by rw [name]; rfl⟩
          intro other keyword
          rw [name, List.singleton_append, ← whole] at keyword
          exact absent keyword.found
  · intro h
    obtain ⟨rest, whole, stands, rfl⟩ := h
    have fits := congrArg List.length whole
    rw [List.length_append, List.length_drop] at fits
    obtain keyword | ⟨one, none⟩ := stands
    · rw [← whole] at keyword
      have found := keyword.matched
      have pos_ : 0 < kind.name.length := by
        have := keyword.found
        rwa [found] at this
      have fits : pos + 1 + kind.name.length < 2 ^ 32 := by omega
      simp only [readName, found, pos_, if_true, u32_of_lt fits]
    · have absent : ¬ 0 < (tryMatchKeyword (input.drop (pos + 1))).1 := fun found =>
        none _ (whole ▸ keywordAt_of_match found)
      obtain ⟨letter, other⟩ := name_letter kind one
      have byte : input.getD (pos + 1) 0 = kind.name.getD 0 0 := by
        obtain ⟨c, name⟩ := List.length_eq_one_iff.mp one
        have first := (head_drop input more).symm.trans whole
        rw [name] at first ⊢
        exact (List.cons_eq_cons.mp first).1
      simp only [readName, absent, if_false, byte, other, letter, Option.map_some, one]

end Names

section Blocks
variable {body : Bytes} {block : Option Nat}

/-- A loop over braces that balance only at the end goes there. -/
theorem scanBraces_of_balanced {s : Bytes} {ending depth : Nat}
    (count : s.count (ch '{') + depth = s.count (ch '}'))
    (before : ∀ k < s.length, (s.take k).count (ch '}') < (s.take k).count (ch '{') + depth) :
    scanBraces s ending depth = (ending + s.length, 0) := by
  induction s generalizing ending depth with
  | nil =>
      simp only [List.count_nil, Nat.zero_add] at count
      rw [count]
      rfl
  | cons c s ih =>
      have open_ : depth ≠ 0 := by
        have first := before 0 (Nat.zero_lt_succ _)
        simp only [List.take_zero, List.count_nil] at first
        omega
      have next : ∀ depth', [c].count (ch '{') + depth = [c].count (ch '}') + depth' →
          scanBraces s (ending + 1) depth' = (ending + (c :: s).length, 0) := by
        intro depth' shift
        have counts : ∀ (b : UInt8) (t : Bytes), (c :: t).count b = t.count b + [c].count b := by
          intro b t
          simp [List.count_cons]
        rw [ih, List.length_cons, Nat.add_assoc, Nat.add_comm 1]
        · have head := counts (ch '{') s
          have head' := counts (ch '}') s
          omega
        · intro k hk
          have later := before (k + 1) (by simpa using hk)
          have head := counts (ch '{') (s.take k)
          have head' := counts (ch '}') (s.take k)
          rw [List.take_succ_cons] at later
          omega
      simp only [scanBraces, if_neg open_]
      split
      · next brace => exact next _ (by simp [brace, ch_braces]; omega)
      · split
        · next brace => exact next _ (by simp [brace, Ne.symm ch_braces]; omega)
        · next other brace => exact next _ (by simp [other, brace])

theorem scanBraces_of_balances (h : Balances (printBlock (some body))) (q : Bytes) (start : Nat) :
    scanBraces (body ++ [ch '}'] ++ q) start 1 = (start + (body.length + 1), 0) := by
  obtain ⟨count, before⟩ := h
  apply scanBraces_append
  rw [scanBraces_of_balanced, List.length_append, List.length_singleton]
  · simpa [printBlock, ch_braces] using count
  · intro k hk
    have later := before (k + 1) (Nat.zero_lt_succ k) (by simpa [printBlock] using hk)
    simpa [printBlock, ch_braces] using later

/-- A block is read where one is written whose braces balance at its end. -/
theorem readBlock_iff :
    readBlock input input.length nameEnd = some block ↔
      block = none ∧ (input.drop nameEnd).head? ≠ some (ch '{') ∨
        ∃ body rest, input.drop nameEnd = printBlock (some body) ++ rest ∧
          Balances (printBlock (some body)) ∧ block = some (nameEnd + (body.length + 2)) := by
  constructor
  · intro h
    cases block with
    | none =>
        refine .inl ⟨rfl, ?_⟩
        rw [List.head?_drop]
        obtain past | other := readBlock_none h
        · simp [List.getElem?_eq_none past]
        · intro brace
          rw [List.getD_eq_getElem?_getD, brace] at other
          exact other rfl
    | some stop =>
        obtain ⟨far, inside, written, balances⟩ := readBlock_spec h
        have size : (slice input (nameEnd + 1) (stop - 1)).length + 2 = stop - nameEnd := by
          rw [length_slice]
          omega
        refine .inr ⟨slice input (nameEnd + 1) (stop - 1), input.drop stop, ?_,
          by rwa [written] at balances, congrArg some (by omega)⟩
        rw [printBlock, ← written, slice]
        have rest : input.drop stop = (input.drop nameEnd).drop (stop - nameEnd) := by
          rw [List.drop_drop]
          congr 1
          omega
        rw [rest, List.take_append_drop]
  · intro h
    obtain ⟨rfl, other⟩ | ⟨body, rest, written, balances, rfl⟩ := h
    · have absent : ¬ (decide (nameEnd < input.length) && decide (input.getD nameEnd 0 = ch '{')) =
          true := by
        intro both
        simp only [Bool.and_eq_true, decide_eq_true_eq] at both
        rw [head_drop input both.1, both.2] at other
        exact other rfl
      simp only [readBlock, if_neg absent]
    · have inside : nameEnd < input.length := by
        have size := congrArg List.length written
        simp only [printBlock, List.length_drop, List.length_append, List.length_cons] at size
        omega
      have whole := (head_drop input inside).symm.trans written
      simp only [printBlock, List.cons_append, List.cons.injEq] at whole
      obtain ⟨brace, tail⟩ := whole
      have block : slice input (nameEnd + 1) input.length = body ++ [ch '}'] ++ rest := by
        rw [slice, ← List.length_drop, List.take_length]
        exact tail
      simp only [readBlock, inside, brace, decide_true, Bool.and_self, if_true, block,
        scanBraces_of_balances balances, ne_eq, not_true, if_false]
      congr 2
      omega

end Blocks

end Logrin.Pattern
