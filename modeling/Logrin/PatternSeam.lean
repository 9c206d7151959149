import Logrin.PatternTokens
import Mathlib.Data.List.Find

/-!
The tokens of one text followed by another. The scan looks ahead of a name for the byte that
ends it and for `{`, so the second text has to begin with a byte that ends a name and is not
`{`; and a `%` at the end of the first text must not be one that stands for itself.
-/

namespace Logrin.Pattern
open Logrin.Library

/-- The bytes that end a name, except `{`. -/
def kSeamBytes : Bytes :=
  [ch '%', ch ' ', ch '\t', ch '\n', ch '[', ch ']', ch '(', ch ')', ch '}', ch ':']

/-- The text is empty, or begins with a byte that ends a name. -/
def BeginsAtBoundary (q : Bytes) : Prop := ∀ c ∈ q.head?, c ∈ kSeamBytes

/-- The text ends in a `%` that is scanned as literal text. -/
def EndsInLonePercent (p : Bytes) : Prop :=
  ∃ ts start, tokens p = some ts ∧ .literal start p.length ∈ ts ∧ p.getLast? = some (ch '%')

/-- A token of a text that has `n` bytes before it. -/
def Token.shift (n : Nat) : Token → Token
  | .literal start stop => .literal (n + start) (n + stop)
  | .escape start => .escape (n + start)
  | .directive kind nameEnd block => .directive kind (n + nameEnd) (block.map (n + ·))

section Bytes
variable {p q r : Bytes} {a b j : Nat}

theorem getD_append_left (q : Bytes) (h : j < p.length) : (p ++ q).getD j 0 = p.getD j 0 := by
  rw [List.getD_eq_getElem?_getD, List.getElem?_append_left h, List.getD_eq_getElem?_getD]

theorem getD_append_right (p q : Bytes) (j : Nat) : (p ++ q).getD (p.length + j) 0 = q.getD j 0 := by
  rw [List.getD_eq_getElem?_getD, List.getElem?_append_right (Nat.le_add_right _ _),
    Nat.add_sub_cancel_left, List.getD_eq_getElem?_getD]

theorem slice_append_left (q : Bytes) (a : Nat) (h : b ≤ p.length) :
    slice (p ++ q) a b = slice p a b := by
  by_cases inside : a ≤ p.length
  · rw [slice, List.drop_append_of_le_length inside, List.take_append_of_le_length, slice]
    rw [List.length_drop]
    omega
  · have none : b - a = 0 := by omega
    rw [slice, slice, none, List.take_zero, List.take_zero]

theorem slice_append_right (p q : Bytes) (a b : Nat) :
    slice (p ++ q) (p.length + a) (p.length + b) = slice q a b := by
  have width : p.length + b - (p.length + a) = b - a := by omega
  rw [slice, width, ← List.drop_drop, List.drop_left, slice]

/-- The bytes from `a` on in the first text, and those up to `b` in the second. -/
theorem slice_append_across (q : Bytes) (b : Nat) (h : a ≤ p.length) :
    slice (p ++ q) a (p.length + b) = slice p a p.length ++ slice q 0 b := by
  have rest : slice (p ++ q) p.length (p.length + b) = slice q 0 b := slice_append_right p q 0 b
  rw [← slice_append h (Nat.le_add_right _ _), rest, slice_append_left q a (Nat.le_refl _)]

theorem slice_all (q : Bytes) : slice q 0 q.length = q := List.take_length

end Bytes

section Names
variable {p q r : Bytes} {pos nameEnd : Nat}

theorem isWordBoundary_append (begins : BeginsAtBoundary q) {stop : Nat} (h : stop ≤ r.length) :
    isWordBoundary (r ++ q) stop = isWordBoundary r stop := by
  have seam : ∀ c ∈ kSeamBytes, c ∈ [ch '{', ch '%', ch ' ', ch '\t', ch '\n', ch '[', ch ']',
      ch '(', ch ')', ch '}', ch ':'] := by
    decide +kernel
  obtain inside | rfl := Nat.lt_or_eq_of_le h
  · have longer : stop < (r ++ q).length := by
      rw [List.length_append]
      omega
    rw [isWordBoundary, isWordBoundary, if_neg (Nat.not_le_of_lt inside),
      if_neg (Nat.not_le_of_lt longer), getD_append_left q inside]
  · rw [isWordBoundary, isWordBoundary, if_pos (Nat.le_refl _)]
    cases q with
    | nil => simp
    | cons c q =>
        have byte := getD_append_right r (c :: q) 0
        rw [Nat.add_zero] at byte
        rw [if_neg (by simp), byte]
        exact decide_eq_true (seam c (begins c rfl))

/-- Where a keyword holds a byte that ends a name, `style` stands before it. -/
theorem keyword_inside : ∀ kw ∈ kKeywords, ∀ i < kw.1.length, kw.1.getD i 0 ∈ kSeamBytes →
    kw.1.take i = str "style" := by
  decide +kernel

theorem isPrefixOf_append (begins : BeginsAtBoundary q) (other : r ≠ str "style")
    {kw : Bytes × SegmentKind} (mem : kw ∈ kKeywords) :
    (kw.1.isPrefixOf (r ++ q) && isWordBoundary (r ++ q) kw.1.length) =
      (kw.1.isPrefixOf r && isWordBoundary r kw.1.length) := by
  by_cases fits : kw.1.length ≤ r.length
  · rw [isWordBoundary_append begins fits]
    congr 1
    rw [Bool.eq_iff_iff, List.isPrefixOf_iff_prefix, List.isPrefixOf_iff_prefix]
    constructor
    · exact fun pre => List.prefix_of_prefix_length_le pre (List.prefix_append r q) fits
    · exact fun pre => pre.trans (List.prefix_append r q)
  · have short : kw.1.isPrefixOf r = false := by
      rw [Bool.eq_false_iff]
      intro pre
      exact fits (List.isPrefixOf_iff_prefix.mp pre).length_le
    have long : kw.1.isPrefixOf (r ++ q) = false := by
      rw [Bool.eq_false_iff]
      intro pre
      -- the keyword would go on with the first byte of `q`
      obtain ⟨more, whole⟩ := List.isPrefixOf_iff_prefix.mp pre
      have across : r.length < kw.1.length := Nat.lt_of_not_le fits
      have before : kw.1.take r.length = r := by
        have cut := congrArg (List.take r.length) whole
        rwa [List.take_append_of_le_length (Nat.le_of_lt across), List.take_left] at cut
      have byte : kw.1.getD r.length 0 ∈ q.head? := by
        have cut := congrArg (fun s => s[r.length]?) whole
        simp only [List.getElem?_append_left across, List.getElem?_append_right (Nat.le_refl _),
          Nat.sub_self] at cut
        rw [List.head?_eq_getElem?, ← cut, List.getD_eq_getElem?_getD,
          List.getElem?_eq_getElem across]
        rfl
      exact other (before ▸ keyword_inside kw mem r.length across (begins _ byte))
    rw [short, long, Bool.false_and, Bool.false_and]

theorem tryMatchKeyword_append (begins : BeginsAtBoundary q) (other : r ≠ str "style") :
    tryMatchKeyword (r ++ q) = tryMatchKeyword r := by
  rw [tryMatchKeyword, tryMatchKeyword,
    List.find?_congr fun kw mem => isPrefixOf_append begins other mem]

theorem readName_style (h : p.drop (pos + 1) = str "style") : readName p pos = none := by
  have first : p.getD (pos + 1) 0 = ch 's' := by
    have head := congrArg List.head? h
    rw [List.head?_drop] at head
    rw [List.getD_eq_getElem?_getD, head]
    decide +kernel
  have keyword : tryMatchKeyword (str "style") = (0, .literal) := by decide +kernel
  have letter : letterKind (ch 's') = none := by decide +kernel
  have other : ch 's' ≠ ch '%' := by decide
  simp only [readName, h, keyword, first, Nat.lt_irrefl, if_false, if_neg other, letter,
    Option.map_none]

/-- A name read in the first text is read in the whole. -/
theorem readName_append (begins : BeginsAtBoundary q) (more : pos + 1 < p.length)
    {name : Option SegmentKind × Nat} (h : readName p pos = some name) :
    readName (p ++ q) pos = some name := by
  have other : p.drop (pos + 1) ≠ str "style" := by
    intro style
    rw [readName_style style] at h
    cases h
  rw [← h, readName, readName, List.drop_append_of_le_length (Nat.le_of_lt more),
    tryMatchKeyword_append begins other, getD_append_left q more]

theorem scanBraces_append (q : Bytes) {s : Bytes} {ending depth stop : Nat}
    (h : scanBraces s ending depth = (stop, 0)) :
    scanBraces (s ++ q) ending depth = (stop, 0) := by
  induction s generalizing ending depth with
  | nil =>
      obtain ⟨rfl, rfl⟩ := Prod.mk.inj h
      cases q with
      | nil => rfl
      | cons c q => rfl
  | cons c s ih =>
      simp only [List.cons_append, scanBraces] at h ⊢
      split
      · next closed => rwa [if_pos closed] at h
      · next open_ =>
          rw [if_neg open_] at h
          split
          · next brace => exact ih (by rwa [if_pos brace] at h)
          · next other =>
              rw [if_neg other] at h
              split
              · next brace => exact ih (by rwa [if_pos brace] at h)
              · next other' => exact ih (by rwa [if_neg other'] at h)

theorem BeginsAtBoundary.no_brace (begins : BeginsAtBoundary q) (p : Bytes) :
    (p ++ q).getD p.length 0 ≠ ch '{' := by
  have byte := getD_append_right p q 0
  rw [Nat.add_zero] at byte
  rw [byte]
  cases q with
  | nil => decide
  | cons c q =>
      intro brace
      obtain rfl : c = ch '{' := brace
      have seam := begins _ rfl
      revert seam
      decide

theorem readBlock_seam (begins : BeginsAtBoundary q) :
    readBlock (p ++ q) (p ++ q).length p.length = some none := by
  simp only [readBlock, begins.no_brace p, decide_false, Bool.and_false, Bool.false_eq_true,
    if_false]

/-- A block read in the first text, or its absence, is read in the whole. -/
theorem readBlock_append (begins : BeginsAtBoundary q) (inside : nameEnd ≤ p.length)
    {block : Option Nat} (h : readBlock p p.length nameEnd = some block) :
    readBlock (p ++ q) (p ++ q).length nameEnd = some block := by
  obtain before | rfl := Nat.lt_or_eq_of_le inside
  · have longer : nameEnd < (p ++ q).length := by
      rw [List.length_append]
      omega
    simp only [readBlock, before, longer, decide_true, Bool.true_and,
      getD_append_left q before] at h ⊢
    split
    · next brace =>
        rw [if_pos brace] at h
        split at h
        · cases h
        · next closed =>
            have balanced := scanBraces_append q (Prod.ext rfl (of_not_not closed))
            rw [List.length_append, slice_append_across q _ before, slice_all, balanced]
            simpa using h
    · next absent =>
        rwa [if_neg absent] at h
  · have none : block = none := by
      simpa [readBlock] using h.symm
    rw [none, readBlock_seam begins]

end Names

section Shift
variable {q : Bytes} {pos nameEnd : Nat}

/-- A name read in the second text is read as far behind the first. -/
theorem readName_shift (p : Bytes) (short : (p ++ q).length < 2 ^ 32) {kind : SegmentKind}
    (more : pos + 1 < q.length) (h : readName q pos = some (some kind, nameEnd)) :
    readName (p ++ q) (p.length + pos) = some (some kind, p.length + nameEnd) := by
  have rest : (p ++ q).drop (p.length + pos + 1) = q.drop (pos + 1) := by
    rw [Nat.add_assoc, ← List.drop_drop, List.drop_left]
  have byte : (p ++ q).getD (p.length + pos + 1) 0 = q.getD (pos + 1) 0 := by
    rw [Nat.add_assoc]
    exact getD_append_right p q (pos + 1)
  simp only [readName, rest, byte] at h ⊢
  split
  · next found =>
      rw [if_pos found] at h
      obtain ⟨name, _, size, pre⟩ := tryMatchKeyword_spec found
      have fits := pre.length_le
      rw [List.length_drop] at fits
      rw [List.length_append] at short
      rw [u32_of_lt (by omega)] at h
      rw [u32_of_lt (by omega)]
      simp only [Option.some.injEq, Prod.mk.injEq] at h ⊢
      exact ⟨h.1, by omega⟩
  · next absent =>
      rw [if_neg absent] at h
      split
      · next percent =>
          rw [if_pos percent] at h
          cases h
      · next other =>
          rw [if_neg other] at h
          obtain ⟨kind', letter, same⟩ := Option.map_eq_some_iff.mp h
          simp only [Prod.mk.injEq, Option.some.injEq] at same
          obtain ⟨rfl, rfl⟩ := same
          rw [letter, Option.map_some, Nat.add_assoc]

theorem scanBraces_shift (n : Nat) (s : Bytes) (ending depth : Nat) :
    scanBraces s (n + ending) depth =
      (n + (scanBraces s ending depth).1, (scanBraces s ending depth).2) := by
  induction s generalizing ending depth with
  | nil => rfl
  | cons c s ih =>
      simp only [scanBraces, Nat.add_assoc, ih]
      split
      · rfl
      · split
        · rfl
        · split <;> rfl

theorem readBlock_shift (p : Bytes) {block : Option Nat}
    (h : readBlock q q.length nameEnd = some block) :
    readBlock (p ++ q) (p ++ q).length (p.length + nameEnd) =
      some (block.map (p.length + ·)) := by
  have start : p.length + nameEnd + 1 = p.length + (nameEnd + 1) := Nat.add_assoc _ _ _
  have inside : p.length + nameEnd < p.length + q.length ↔ nameEnd < q.length :=
    Nat.add_lt_add_iff_left
  simp only [readBlock, List.length_append, inside, getD_append_right, start,
    slice_append_right, scanBraces_shift] at h ⊢
  split
  · next brace =>
      rw [if_pos brace] at h
      split
      · next deep =>
          rw [if_pos deep] at h
          cases h
      · next closed =>
          rw [if_neg closed] at h
          cases h
          rfl
  · next absent =>
      rw [if_neg absent] at h
      cases h
      rfl

end Shift

section Tokens
variable {p q : Bytes} {a b : Nat} {t : Token} {ts us : List Token}

/-- A token of the first text is one of the whole, unless it ends in a lone `%`. -/
theorem TokenAt.append_left (short : p.length < 2 ^ 32) (begins : BeginsAtBoundary q)
    (h : TokenAt p p.length a b t)
    (whole : ∀ start, t = .literal start p.length → p.getLast? ≠ some (ch '%')) :
    TokenAt (p ++ q) (p ++ q).length a b t := by
  have longer : p.length ≤ (p ++ q).length := by simp
  cases h with
  | literal run =>
      have fits := run.fits
      refine .literal ⟨run.some, Nat.le_trans fits longer, ?_⟩
      intro j low high percent
      rw [getD_append_left q (Nat.lt_of_lt_of_le high fits)] at percent
      -- a `%` in a literal run of the first text is its last byte
      have last := run.plain j low high percent
      obtain rfl : b = p.length := by omega
      refine absurd ?_ (whole a rfl)
      rw [List.getLast?_eq_getElem?, show p.length - 1 = j by omega, ← percent,
        List.getD_eq_getElem?_getD, List.getElem?_eq_getElem high]
      rfl
  | escape first more second =>
      have before : a < p.length := Nat.lt_of_succ_lt more
      exact .escape (by rwa [getD_append_left q before]) (Nat.lt_of_lt_of_le more longer)
        (by rwa [getD_append_left q more])
  | directive first more name read =>
      have before : a < p.length := Nat.lt_of_succ_lt more
      obtain ⟨fits, _, _⟩ := readName_spec short more name
      exact .directive (by rwa [getD_append_left q before]) (Nat.lt_of_lt_of_le more longer)
        (readName_append begins more name) (readBlock_append begins fits read)

/-- A token of the second text is one of the whole, further behind. -/
theorem TokenAt.append_right (p : Bytes) (short : (p ++ q).length < 2 ^ 32)
    (h : TokenAt q q.length a b t) :
    TokenAt (p ++ q) (p ++ q).length (p.length + a) (p.length + b) (t.shift p.length) := by
  have size : (p ++ q).length = p.length + q.length := List.length_append
  cases h with
  | literal run =>
      obtain ⟨some, fits, plain⟩ := run
      refine .literal ⟨by omega, by omega, ?_⟩
      intro j low high percent
      obtain ⟨i, rfl⟩ := Nat.exists_eq_add_of_le (by omega : p.length ≤ j)
      rw [getD_append_right] at percent
      have last := plain i (by omega) (by omega) percent
      omega
  | escape first more second =>
      refine .escape ?_ (by omega) ?_
      · rwa [getD_append_right]
      · rwa [Nat.add_assoc, getD_append_right]
  | @directive nameEnd kind block first more name read =>
      have at_ : TokenAt (p ++ q) (p ++ q).length (p.length + a)
          ((block.map (p.length + ·)).getD (p.length + nameEnd))
          (.directive kind (p.length + nameEnd) (block.map (p.length + ·))) :=
        .directive (by rwa [getD_append_right]) (by omega) (readName_shift p short more name)
          (readBlock_shift p read)
      cases block with
      | none => exact at_
      | some stop => exact at_

@[simp] theorem Token.shift_isLiteral (n : Nat) (t : Token) :
    (t.shift n).isLiteral = t.isLiteral := by
  cases t <;> rfl

/-- The tokens of two texts after one another: the second ones moved behind the first text, of
`n` bytes, and literal runs that meet made one. -/
inductive Joined (n : Nat) : List Token → List Token → List Token → Prop
  | apart {ts us : List Token}
      (h : ∀ s ∈ ts.getLast?, ∀ t ∈ us.head?, ¬ (s.isLiteral ∧ t.isLiteral)) :
      Joined n ts us (ts ++ us.map (Token.shift n))
  | merged {ts us : List Token} {a b : Nat} :
      Joined n (ts ++ [.literal a n]) (.literal 0 b :: us)
        (ts ++ .literal a (n + b) :: us.map (Token.shift n))

theorem separate_shift (n : Nat) (h : Separate ts) : Separate (ts.map (Token.shift n)) := by
  rw [Separate, List.isChain_map]
  simp only [Token.shift_isLiteral]
  exact h

theorem Joined.separate {n : Nat} {vs : List Token} (h : Joined n ts us vs) (hts : Separate ts)
    (hus : Separate us) : Separate vs := by
  cases h with
  | apart apart =>
      apply hts.append (separate_shift n hus)
      intro s last t head
      rw [List.head?_map] at head
      obtain ⟨t', first, rfl⟩ := Option.map_eq_some_iff.mp head
      rw [Token.shift_isLiteral]
      exact apart s last t' first
  | merged =>
      obtain ⟨front, _, before⟩ := List.isChain_append.mp hts
      obtain ⟨after, back⟩ := List.isChain_cons.mp hus
      refine front.append (List.isChain_cons.mpr ⟨?_, separate_shift n back⟩) ?_
      · intro t head
        rw [List.head?_map] at head
        obtain ⟨t', first, rfl⟩ := Option.map_eq_some_iff.mp head
        rw [Token.shift_isLiteral]
        exact after t' first
      · intro s last t head
        cases head
        exact before s last (.literal _ n) rfl

theorem eq_literal_of_isLiteral {len : Nat} {input : Bytes} (h : TokenAt input len a b t)
    (literal : t.isLiteral = true) : t = .literal a b := by
  cases h with
  | literal run => rfl
  | escape | directive => cases literal

/-- Literal runs that meet are one run. -/
theorem TokenAt.meet {len c : Nat} {input : Bytes} (h : TokenAt input len a b (.literal a b))
    (h' : TokenAt input len b c (.literal b c)) : TokenAt input len a c (.literal a c) := by
  cases h with
  | literal run =>
      cases h' with
      | literal run' =>
          refine .literal ⟨Nat.lt_trans run.some run'.some, run'.fits, ?_⟩
          intro j low high percent
          by_cases before : j < b
          · exact run.plain j low before percent
          · exact run'.plain j (Nat.le_of_not_lt before) high percent

/-- The tokens of two texts give those of the whole. -/
theorem tokens_append (short : (p ++ q).length < 2 ^ 32) (begins : BeginsAtBoundary q)
    (ends : ¬ EndsInLonePercent p) (hts : tokens p = some ts) (hus : tokens q = some us)
    (few : ts.length ≤ 64) (few' : us.length ≤ 64) :
    ∃ vs, tokens (p ++ q) = some vs ∧ Joined p.length ts us vs := by
  have size : (p ++ q).length = p.length + q.length := List.length_append
  obtain ⟨laid, apart⟩ := (tokens_iff_tiles (by omega) few).mp hts
  obtain ⟨laid', apart'⟩ := (tokens_iff_tiles (by omega) few').mp hus
  have first : Tiles (TokenAt (p ++ q) (p ++ q).length) 0 ts p.length := by
    have moved : Tiles (TokenAt (p ++ q) (p ++ q).length) (id 0) (ts.map id) (id p.length) := by
      refine laid.map id id fun a b t member at_ => at_.append_left (by omega) begins ?_
      exact fun start same percent => ends ⟨ts, start, hts, same ▸ member, percent⟩
    rwa [List.map_id] at moved
  have last : Tiles (TokenAt (p ++ q) (p ++ q).length) p.length (us.map (Token.shift p.length))
      (p ++ q).length := by
    rw [size]
    exact laid'.map (p.length + ·) (Token.shift p.length) fun a b t _ at_ =>
      size ▸ at_.append_right p short
  have joined : ∃ vs, Joined p.length ts us vs ∧
      Tiles (TokenAt (p ++ q) (p ++ q).length) 0 vs (p ++ q).length := by
    by_cases meet : ∀ s ∈ ts.getLast?, ∀ t ∈ us.head?, ¬ (s.isLiteral ∧ t.isLiteral)
    · exact ⟨_, .apart meet, first.append last⟩
    · push Not at meet
      obtain ⟨s, hs, t, ht, literal, literal'⟩ := meet
      obtain ⟨ts, rfl⟩ := List.getLast?_eq_some_iff.mp hs
      obtain ⟨us, rfl⟩ := List.head?_eq_some_iff.mp ht
      obtain ⟨a, front, run⟩ := first.split
      cases run with
      | cons at_ nothing =>
          cases nothing with
          | nil =>
              obtain rfl := eq_literal_of_isLiteral at_ literal
              cases last with
              | @cons _ b _ _ _ at_' back =>
                  have same := eq_literal_of_isLiteral at_' (by simpa using literal')
                  rw [same] at at_'
                  cases t with
                  | escape | directive => cases literal'
                  | literal x y =>
                      obtain ⟨zero, rfl⟩ := Token.literal.inj same
                      obtain rfl : x = 0 := Nat.add_eq_left.mp zero
                      exact ⟨_, .merged, front.append (.cons (at_.meet at_') back)⟩
  obtain ⟨vs, join, tiles⟩ := joined
  exact ⟨vs, tokens_of_tiles short tiles (join.separate apart apart'), join⟩

end Tokens

end Logrin.Pattern
