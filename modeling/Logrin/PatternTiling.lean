import Logrin.PatternScan

/-!
The parser loses and invents nothing: on a text short enough for 16-bit offsets the
segments are laid end to end over the text.
-/

namespace Logrin.Pattern
open Logrin.Library

variable {input : Bytes} {config : ParseConfig} {len : Nat}

/-- The names of a kind, as written after `%`. -/
def IsName (name : Bytes) (kind : SegmentKind) : Prop :=
  (name, kind) ∈ kKeywords ∨ ∃ letter, name = [letter] ∧ letterKind letter = some kind

/-- The braces of the text first balance at its end. -/
def Balances (text : Bytes) : Prop :=
  text.count (ch '{') = text.count (ch '}') ∧
  ∀ n, 0 < n → n < text.length → (text.take n).count (ch '}') < (text.take n).count (ch '{')

theorem tryMatchKeyword_spec {rest : Bytes} (found : 0 < (tryMatchKeyword rest).1) :
    ∃ name, (name, (tryMatchKeyword rest).2) ∈ kKeywords ∧
      name.length = (tryMatchKeyword rest).1 ∧ name <+: rest := by
  simp only [tryMatchKeyword] at found ⊢
  split at found
  · next kw hit =>
      have matched := List.find?_some hit
      simp only [Bool.and_eq_true, List.isPrefixOf_iff_prefix] at matched
      exact ⟨kw.1, List.mem_of_find?_eq_some hit, rfl, matched.1⟩
  · exact absurd found (Nat.lt_irrefl 0)

theorem u32_of_lt {n : Nat} (h : n < 2 ^ 32) : u32 n = n := Nat.mod_eq_of_lt h

/-- A name is read off the text byte by byte. -/
theorem readName_spec {pos nameEnd : Nat} {kind : SegmentKind} (short : input.length < 2 ^ 32)
    (more : pos + 1 < input.length) (h : readName input pos = some (some kind, nameEnd)) :
    nameEnd ≤ input.length ∧ pos + 1 < nameEnd ∧
      IsName (slice input (pos + 1) nameEnd) kind := by
  simp only [readName] at h
  split at h
  · next found =>
      obtain ⟨name, mem, size, pre⟩ := tryMatchKeyword_spec found
      have fits := pre.length_le
      rw [List.length_drop] at fits
      rw [u32_of_lt (by omega)] at h
      simp only [Option.some.injEq, Prod.mk.injEq] at h
      obtain ⟨rfl, rfl⟩ := h
      rw [← size, slice_of_isPrefix pre]
      exact ⟨by omega, by omega, Or.inl mem⟩
  · split at h
    · simp at h
    · obtain ⟨_, letter, same⟩ := Option.map_eq_some_iff.mp h
      simp only [Prod.mk.injEq, Option.some.injEq] at same
      obtain ⟨rfl, rfl⟩ := same
      refine ⟨by omega, by omega, Or.inr ⟨_, slice_succ more, letter⟩⟩

theorem readName_escape {pos nameEnd : Nat} (h : readName input pos = some (none, nameEnd)) :
    nameEnd = pos + 2 ∧ input.getD (pos + 1) 0 = ch '%' := by
  simp only [readName] at h
  split at h
  · simp at h
  · split at h
    · next percent => exact ⟨by simpa using h.symm, percent⟩
    · simp at h

theorem ch_braces : ch '{' ≠ ch '}' := by decide

/-- The loop over a block stops where the braces first balance. -/
theorem scanBraces_spec {s : Bytes} {ending stop depth : Nat}
    (h : scanBraces s ending depth = (stop, 0)) :
    ∃ n ≤ s.length, stop = ending + n ∧
      (s.take n).count (ch '{') + depth = (s.take n).count (ch '}') ∧
      ∀ k < n, (s.take k).count (ch '}') < (s.take k).count (ch '{') + depth := by
  induction s generalizing ending depth with
  | nil =>
      obtain ⟨rfl, rfl⟩ := Prod.mk.inj h
      exact ⟨0, by simp, rfl, by simp, by simp⟩
  | cons c rest ih =>
      -- the byte `c` changes the depth to `depth'`, and the loop goes on from there
      have next : ∀ depth', scanBraces rest (ending + 1) depth' = (stop, 0) → 0 < depth →
          [c].count (ch '{') + depth = [c].count (ch '}') + depth' →
          ∃ n ≤ (c :: rest).length, stop = ending + n ∧
            ((c :: rest).take n).count (ch '{') + depth = ((c :: rest).take n).count (ch '}') ∧
            ∀ k < n, ((c :: rest).take k).count (ch '}') <
              ((c :: rest).take k).count (ch '{') + depth := by
        intro depth' hrest open_ shift
        obtain ⟨n, fits, rfl, closed, before⟩ := ih hrest
        have count : ∀ (b : UInt8) (k : Nat),
            ((c :: rest).take (k + 1)).count b = (rest.take k).count b + [c].count b := by
          intro b k
          simp [List.take_succ_cons, List.count_cons]
        refine ⟨n + 1, by simpa using fits, by omega, ?_, ?_⟩
        · rw [count, count]
          omega
        · intro k hk
          cases k with
          | zero => simpa using open_
          | succ k =>
              have earlier := before k (by omega)
              rw [count, count]
              omega
      simp only [scanBraces] at h
      split at h
      · next closed =>
          obtain ⟨rfl, _⟩ := Prod.mk.inj h
          exact ⟨0, by simp, rfl, by simp [closed], by simp⟩
      · next open_ =>
          split at h
          · next brace => exact next _ h (by omega) (by simp [brace, ch_braces]; omega)
          · split at h
            · next brace =>
                exact next _ h (by omega) (by simp [brace, Ne.symm ch_braces]; omega)
            · next other brace =>
                exact next _ h (by omega) (by simp [other, brace])

/-- Where the braces after an opening one first balance there is a closing one. -/
theorem closes_at_end {s : Bytes} {n : Nat} (fits : n ≤ s.length)
    (count : (s.take n).count (ch '{') + 1 = (s.take n).count (ch '}'))
    (before : ∀ k < n, (s.take k).count (ch '}') < (s.take k).count (ch '{') + 1) :
    ∃ body, s.take n = body ++ [ch '}'] := by
  cases n with
  | zero => simp at count
  | succ m =>
      have split : s.take (m + 1) = s.take m ++ [s[m]] := List.take_succ_eq_append_getElem fits
      have earlier := before m (Nat.lt_succ_self m)
      rw [split, List.count_append, List.count_append] at count
      have last : s[m] = ch '}' := by
        apply Decidable.byContradiction
        intro other
        rw [List.count_singleton (a := ch '}'), if_neg (by simpa using other)] at count
        omega
      exact ⟨s.take m, by rw [split, last]⟩

theorem balances_of_count {t : Bytes}
    (count : t.count (ch '{') + 1 = t.count (ch '}'))
    (before : ∀ k < t.length, (t.take k).count (ch '}') < (t.take k).count (ch '{') + 1) :
    Balances (ch '{' :: t) := by
  constructor
  · simpa [ch_braces] using count
  · intro n pos short
    cases n with
    | zero => omega
    | succ k =>
        have earlier := before k (by simpa using short)
        simpa [ch_braces] using earlier

/-- A block is a pair of braces that first balance at the end of the block. -/
theorem readBlock_spec {nameEnd stop : Nat}
    (h : readBlock input input.length nameEnd = some (some stop)) :
    nameEnd + 2 ≤ stop ∧ stop ≤ input.length ∧
      slice input nameEnd stop = ch '{' :: slice input (nameEnd + 1) (stop - 1) ++ [ch '}'] ∧
      Balances (slice input nameEnd stop) := by
  simp only [readBlock, Bool.and_eq_true, decide_eq_true_eq] at h
  split at h
  · next open_ =>
      split at h
      · simp at h
      · next closed =>
          simp only [Option.some.injEq] at h
          obtain ⟨n, fits, same, count, before⟩ := scanBraces_spec
            (Prod.ext h (of_not_not closed))
          rw [length_slice, Nat.min_self] at fits
          have size : n ≠ 0 := by
            intro zero
            subst zero
            simp at count
          have inner : (slice input (nameEnd + 1) input.length).take n =
              slice input (nameEnd + 1) stop := by
            rw [take_slice n (by omega), same]
          obtain ⟨body, ends⟩ := closes_at_end (by simpa using fits) count before
          have whole : slice input nameEnd stop = ch '{' :: slice input (nameEnd + 1) stop := by
            rw [← slice_append (Nat.le_succ nameEnd) (by omega : nameEnd + 1 ≤ stop),
              slice_succ open_.1, open_.2]
            rfl
          have last : slice input (nameEnd + 1) stop =
              slice input (nameEnd + 1) (stop - 1) ++ [ch '}'] := by
            have cut := slice_append (s := input) (by omega : nameEnd + 1 ≤ stop - 1)
              (Nat.sub_le stop 1)
            have byte : slice input (stop - 1) stop = [input.getD (stop - 1) 0] := by
              rw [← slice_succ (by omega : stop - 1 < input.length),
                Nat.sub_add_cancel (by omega)]
            rw [inner, ← cut, byte] at ends
            rw [← cut, byte, List.append_inj_right' ends rfl]
          refine ⟨by omega, by omega, by rw [whole, last]; rfl, ?_⟩
          rw [whole]
          refine balances_of_count (inner ▸ count) ?_
          intro k hk
          have earlier := before k (by rw [length_slice] at hk; omega)
          have cut : (slice input (nameEnd + 1) stop).take k =
              (slice input (nameEnd + 1) input.length).take k := by
            rw [length_slice] at hk
            rw [take_slice k (by omega), take_slice k (by omega)]
          rwa [cut]
  · simp at h

theorem readBlock_inside {nameEnd stop : Nat} (h : readBlock input len nameEnd = some (some stop)) :
    nameEnd < len := by
  simp only [readBlock] at h
  split at h
  · next open_ =>
      simp only [Bool.and_eq_true, decide_eq_true_eq] at open_
      exact open_.1
  · simp at h

theorem readBlock_none {nameEnd : Nat} (h : readBlock input len nameEnd = some none) :
    len ≤ nameEnd ∨ input.getD nameEnd 0 ≠ ch '{' := by
  simp only [readBlock] at h
  split at h
  · split at h <;> simp at h
  · next absent =>
      by_cases inside : nameEnd < len
      · exact Or.inr (by simpa [inside] using absent)
      · exact Or.inl (Nat.le_of_not_lt inside)

/-- A run of bytes without `%`, except for one that ends the text. -/
structure PlainRun (input : Bytes) (len a b : Nat) : Prop where
  some : a < b
  fits : b ≤ len
  plain : ∀ j, a ≤ j → j < b → input.getD j 0 = ch '%' → len ≤ j + 1

/-- Where a token lies in the text. -/
inductive TokenAt (input : Bytes) (len : Nat) : Nat → Nat → Token → Prop
  | literal {a b : Nat} (run : PlainRun input len a b) : TokenAt input len a b (.literal a b)
  | escape {a : Nat} (first : input.getD a 0 = ch '%') (more : a + 1 < len)
      (second : input.getD (a + 1) 0 = ch '%') : TokenAt input len a (a + 2) (.escape a)
  | directive {a nameEnd : Nat} {kind : SegmentKind} {block : Option Nat}
      (first : input.getD a 0 = ch '%') (more : a + 1 < len)
      (name : readName input a = some (some kind, nameEnd))
      (read : readBlock input len nameEnd = some block) :
      TokenAt input len a (block.getD nameEnd) (.directive kind nameEnd block)

/-- What one iteration of the scan does. -/
inductive Advances (input : Bytes) (len : Nat) (c : Cursor) : Cursor → List Token → Prop
  | plain (h : input.getD c.pos 0 = ch '%' → len ≤ c.pos + 1) :
      Advances input len c
        { pos := c.pos + 1
          literalStart := if c.inLiteral then c.literalStart else c.pos
          inLiteral := true } []
  | token {stop : Nat} {t : Token} (h : TokenAt input len c.pos stop t) :
      Advances input len c (.after stop) (c.literalRun c.pos ++ [t])

theorem advances_of_advance {c c' : Cursor} {ts : List Token}
    (h : advance input len c = some (c', ts)) : Advances input len c c' ts := by
  simp only [advance] at h
  split at h
  · next plain =>
      obtain ⟨rfl, rfl⟩ := Prod.mk.inj (Option.some.inj h)
      apply Advances.plain
      intro percent
      simpa only [percent, ne_eq, not_true, decide_false, Bool.false_or, decide_eq_true_eq]
        using plain
  · next percent =>
      simp only [Bool.or_eq_true, decide_eq_true_eq, not_or, not_not, Nat.not_le] at percent
      obtain ⟨⟨name, nameEnd⟩, hname, h⟩ := Option.bind_eq_some_iff.mp h
      cases name with
      | none =>
          obtain ⟨rfl, rfl⟩ := Prod.mk.inj (Option.some.inj h)
          obtain ⟨rfl, second⟩ := readName_escape hname
          exact .token (.escape percent.1 percent.2 second)
      | some kind =>
          obtain ⟨block, hblock, h⟩ := Option.map_eq_some_iff.mp h
          obtain ⟨rfl, rfl⟩ := Prod.mk.inj h
          exact .token (.directive percent.1 percent.2 hname hblock)

namespace Cursor

/-- Where the text that no token covers yet begins. -/
def front (c : Cursor) : Nat := if c.inLiteral then c.literalStart else c.pos

/-- A literal run in progress is a run of plain bytes. -/
def Plain (input : Bytes) (len : Nat) (c : Cursor) : Prop :=
  c.inLiteral = true → PlainRun input len c.literalStart c.pos

theorem Plain.literalRun {c : Cursor} (h : c.Plain input len) :
    Tiles (TokenAt input len) c.front (c.literalRun c.pos) c.pos := by
  simp only [front, Cursor.literalRun]
  cases hin : c.inLiteral with
  | false => exact .nil _
  | true =>
      have run := h hin
      simp only [if_true, Bool.true_and, decide_eq_true_eq, if_pos run.some]
      exact .singleton (.literal run)

end Cursor

theorem Advances.tiles {c c' : Cursor} {ts : List Token} (h : Advances input len c c' ts)
    (inside : c.pos < len) (plain : c.Plain input len) :
    c'.Plain input len ∧ Tiles (TokenAt input len) c.front ts c'.front := by
  cases h with
  | token at_ => exact ⟨by simp [Cursor.Plain, Cursor.after], plain.literalRun.append (.singleton at_)⟩
  | plain here =>
      refine ⟨?_, by simpa [Cursor.front] using Tiles.nil _⟩
      intro _
      cases hin : c.inLiteral with
      | false =>
          refine ⟨Nat.lt_succ_self c.pos, inside, ?_⟩
          intro j low high percent
          obtain rfl : j = c.pos := Nat.le_antisymm (Nat.le_of_lt_succ high) low
          exact here percent
      | true =>
          have run := plain hin
          refine ⟨Nat.lt_succ_of_lt run.some, inside, ?_⟩
          intro j low high percent
          by_cases hj : j < c.pos
          · exact run.plain j low hj percent
          · obtain rfl : j = c.pos := Nat.le_antisymm (Nat.le_of_lt_succ high) (Nat.le_of_not_lt hj)
            exact here percent

/-- The tokens of the scan lie end to end over the text it has passed. -/
theorem scanLoop_tiles {fuel : Nat} {c c' : Cursor} {ts : List Token}
    (h : scanLoop input len fuel c = some (c', ts)) (plain : c.Plain input len) :
    c'.Plain input len ∧ Tiles (TokenAt input len) c.front ts c'.front := by
  induction fuel generalizing c ts with
  | zero =>
      obtain ⟨rfl, rfl⟩ := Prod.mk.inj (Option.some.inj h)
      exact ⟨plain, .nil _⟩
  | succ fuel ih =>
      simp only [scanLoop] at h
      split at h
      · next inside =>
          obtain ⟨⟨c₁, ts₁⟩, first, h⟩ := Option.bind_eq_some_iff.mp h
          obtain ⟨⟨c₂, ts₂⟩, rest, same⟩ := Option.map_eq_some_iff.mp h
          obtain ⟨rfl, rfl⟩ := Prod.mk.inj same
          obtain ⟨plain₁, tiles₁⟩ := (advances_of_advance first).tiles inside plain
          obtain ⟨plain₂, tiles₂⟩ := ih rest plain₁
          exact ⟨plain₂, tiles₁.append tiles₂⟩
      · obtain ⟨rfl, rfl⟩ := Prod.mk.inj (Option.some.inj h)
        exact ⟨plain, .nil _⟩

/-- A scan that stops for lack of fuel has found a token in every `len + 1` iterations. -/
theorem scanLoop_fuel {fuel : Nat} {c c' : Cursor} {ts : List Token}
    (h : scanLoop input len fuel c = some (c', ts)) (inside : c'.pos < len) :
    fuel + c.pos ≤ ts.length * (len + 1) + c'.pos := by
  induction fuel generalizing c c' ts with
  | zero =>
      obtain ⟨rfl, rfl⟩ := Prod.mk.inj (Option.some.inj h)
      simp
  | succ fuel ih =>
      simp only [scanLoop] at h
      split at h
      · next before =>
          obtain ⟨⟨c₁, ts₁⟩, first, h⟩ := Option.bind_eq_some_iff.mp h
          obtain ⟨⟨c₂, ts₂⟩, rest, same⟩ := Option.map_eq_some_iff.mp h
          obtain ⟨rfl, rfl⟩ := Prod.mk.inj same
          have bound : fuel + c₁.pos ≤ ts₂.length * (len + 1) + c₂.pos := ih rest inside
          show fuel + 1 + c.pos ≤ (ts₁ ++ ts₂).length * (len + 1) + c₂.pos
          cases advances_of_advance first with
          | plain _ =>
              simp only [List.nil_append] at bound ⊢
              omega
          | @token stop t _ =>
              have more : (ts₂.length + 1) * (len + 1) ≤
                  ((c.literalRun c.pos ++ [t] ++ ts₂).length) * (len + 1) := by
                apply Nat.mul_le_mul_right _
                simp only [List.length_append, List.length_singleton]
                omega
              rw [Nat.succ_mul] at more
              have last : c₂.pos < len := inside
              omega
      · next stop =>
          obtain ⟨rfl, rfl⟩ := Prod.mk.inj (Option.some.inj h)
          exact absurd inside stop

/-- The tokens of an accepted text lie end to end over all of it. -/
theorem tokens_tile {ts : List Token} (h : tokens input = some ts) (few : ts.length ≤ 64) :
    ∃ stop, u32 input.length ≤ stop ∧ Tiles (TokenAt input (u32 input.length)) 0 ts stop := by
  simp only [tokens] at h
  obtain ⟨⟨c, found⟩, scan, same⟩ := Option.map_eq_some_iff.mp h
  simp only at same
  obtain ⟨plain, tiles⟩ := scanLoop_tiles scan (by simp [Cursor.Plain, Cursor.start])
  have done : u32 input.length ≤ c.pos := by
    apply Nat.le_of_not_lt
    intro inside
    have bound := scanLoop_fuel scan inside
    have size : found.length ≤ 64 := by
      rw [← same, List.length_append] at few
      omega
    have most := Nat.mul_le_mul_right (u32 input.length + 1) size
    simp only [parseFuel] at bound
    omega
  cases hin : c.inLiteral with
  | false =>
      refine ⟨c.pos, done, ?_⟩
      have front : c.front = c.pos := by simp [Cursor.front, hin]
      have none : c.literalRun (u32 input.length) = [] := by simp [Cursor.literalRun, hin]
      rw [none, List.append_nil] at same
      rwa [front, same] at tiles
  | true =>
      have stop : c.pos = u32 input.length := Nat.le_antisymm (plain hin).fits done
      refine ⟨u32 input.length, Nat.le_refl _, ?_⟩
      have all := tiles.append plain.literalRun
      rwa [stop, same] at all

/-- A literal segment that covers `a`, ..., `b - 1` verbatim. -/
def LiteralAt (input : Bytes) (a b : Nat) (segment : Segment) : Prop :=
  segment.kind = .literal ∧ segment.directive = none ∧
  segment.text.1.toNat = a ∧ segment.text.2.toNat = b - a ∧
  ∀ j, a ≤ j → j < b → input.getD j 0 = ch '%' → j + 1 = input.length

/-- A literal segment for the second byte of `%%`. -/
def EscapeAt (input : Bytes) (a b : Nat) (segment : Segment) : Prop :=
  slice input a b = [ch '%', ch '%'] ∧ segment.kind = .literal ∧ segment.directive = none ∧
  segment.text.1.toNat = a + 1 ∧ segment.text.2.toNat = 1

/-- A directive: its name, and the block that follows if one does. -/
def DirectiveAt (input : Bytes) (a b : Nat) (segment : Segment) : Prop :=
  ∃ name nameEnd, slice input a nameEnd = ch '%' :: name ∧ IsName name segment.kind ∧
    ((segment.directive = none ∧ b = nameEnd ∧ input[b]? ≠ some (ch '{')) ∨
      ∃ body directive, slice input nameEnd b = ch '{' :: body ++ [ch '}'] ∧
        Balances (slice input nameEnd b) ∧
        Directive.parse body (nameEnd + 1) segment.kind = .ok directive ∧
        segment.directive = some directive)

def SegmentAt (input : Bytes) (a b : Nat) (segment : Segment) : Prop :=
  a < b ∧ b ≤ input.length ∧
    (LiteralAt input a b segment ∨ EscapeAt input a b segment ∨ DirectiveAt input a b segment)

theorem toNat_ofNat {n : Nat} (h : n < 2 ^ 16) : (UInt16.ofNat n).toNat = n := by
  simpa using Nat.mod_eq_of_lt h

section SegmentAt
variable {a b : Nat} {t : Token} {segment : Segment}

/-- Each token has bytes of its own, inside the text. -/
theorem TokenAt.inside (short : input.length < 2 ^ 32)
    (h : TokenAt input input.length a b t) : a < b ∧ b ≤ input.length := by
  cases h with
  | literal run => exact ⟨run.some, run.fits⟩
  | escape _ more _ => exact ⟨by omega, by omega⟩
  | @directive nameEnd _ block _ more name read =>
      obtain ⟨fits, some, _⟩ := readName_spec short more name
      cases block with
      | none => exact ⟨by simp only [Option.getD_none]; omega, fits⟩
      | some stop =>
          obtain ⟨size, inside, _⟩ := readBlock_spec read
          exact ⟨by simp only [Option.getD_some]; omega, inside⟩

theorem PlainRun.literalAt (short : input.length ≤ 65535) (run : PlainRun input input.length a b)
    (stored : Stored input (.literal a b) segment) : LiteralAt input a b segment := by
  obtain ⟨kind, text, directive⟩ := stored
  have some := run.some
  have fits := run.fits
  refine ⟨kind, directive, ?_, ?_, ?_⟩
  · rw [text, toNat_ofNat (by omega)]
  · rw [text, toNat_ofNat (by omega)]
  · intro j low high percent
    have last := run.plain j low high percent
    omega

theorem escapeAt_of_stored (short : input.length ≤ 65535) (first : input.getD a 0 = ch '%')
    (more : a + 1 < input.length) (second : input.getD (a + 1) 0 = ch '%')
    (stored : Stored input (.escape a) segment) : EscapeAt input a (a + 2) segment := by
  obtain ⟨kind, text, directive⟩ := stored
  refine ⟨?_, kind, directive, ?_, ?_⟩
  · rw [← slice_append (Nat.le_succ a) (Nat.le_succ (a + 1)), slice_succ (by omega),
      slice_succ more, first, second]
    rfl
  · rw [text, toNat_ofNat (by omega)]
  · rw [text]
    rfl

theorem directiveAt_of_stored {nameEnd : Nat} {kind : SegmentKind} {block : Option Nat}
    (short : input.length ≤ 65535) (first : input.getD a 0 = ch '%')
    (more : a + 1 < input.length) (name : readName input a = some (some kind, nameEnd))
    (read : readBlock input input.length nameEnd = some block)
    (stored : Stored input (.directive kind nameEnd block) segment) :
    DirectiveAt input a (block.getD nameEnd) segment := by
  obtain ⟨rfl, _, stored⟩ := stored
  obtain ⟨_, some, named⟩ := readName_spec (by omega) more name
  have whole : slice input a nameEnd = ch '%' :: slice input (a + 1) nameEnd := by
    rw [← slice_append (Nat.le_succ a) (by omega : a + 1 ≤ nameEnd), slice_succ (by omega),
      first]
    rfl
  refine ⟨_, nameEnd, whole, named, ?_⟩
  cases block with
  | none =>
      have absent : input[nameEnd]? ≠ Option.some (ch '{') := by
        intro brace
        obtain out | other := readBlock_none read
        · rw [List.getElem?_eq_none out] at brace
          cases brace
        · rw [List.getD_eq_getElem?_getD, brace] at other
          exact other rfl
      exact .inl ⟨(Option.some.inj stored).symm, rfl, absent⟩
  | some stop =>
      obtain ⟨_, _, braces, balanced⟩ := readBlock_spec read
      obtain ⟨directive, parsed, same⟩ := Option.map_eq_some_iff.mp stored
      exact .inr ⟨_, directive, braces, balanced, toOption_eq_some.mp parsed, same.symm⟩

theorem TokenAt.segmentAt (short : input.length ≤ 65535) (h : TokenAt input input.length a b t)
    (stored : Stored input t segment) : SegmentAt input a b segment := by
  obtain ⟨some, fits⟩ := h.inside (by omega)
  refine ⟨some, fits, ?_⟩
  cases h with
  | literal run => exact .inl (run.literalAt short stored)
  | escape first more second => exact .inr (.inl (escapeAt_of_stored short first more second stored))
  | directive first more name read =>
      exact .inr (.inr (directiveAt_of_stored short first more name read stored))

end SegmentAt

/-- The segments of an accepted text of at most 65535 bytes lie end to end over it. -/
theorem segments_tile_text {p : ParsedPattern} (short : input.length ≤ 65535)
    (h : parse input config = .ok p) :
    p.segments.length ≤ 64 ∧ ∃ pos : Nat → Nat, pos 0 = 0 ∧
      pos p.segments.length = input.length ∧
      ∀ i (hi : i < p.segments.length), SegmentAt input (pos i) (pos (i + 1)) p.segments[i] := by
  obtain ⟨ts, hts, stored, _, few, _⟩ := parse_stored h
  refine ⟨few, ?_⟩
  obtain ⟨stop, past, tiles⟩ := tokens_tile hts (stored.length_eq ▸ few)
  rw [u32_of_lt (by omega)] at past tiles
  have laid := tiles.transport stored fun a b t segment piece same => piece.segmentAt short same
  have whole : stop = input.length :=
    Nat.le_antisymm (laid.le (Nat.zero_le _) fun _ _ _ piece => piece.2.1) past
  rw [whole] at laid
  exact laid.positions

theorem segments_tile_sample :
    ∃ p, parse (str "a%%%n{<5}") { } = .ok p ∧ p.segments.length ≤ 64 ∧
      ∃ pos : Nat → Nat, pos 0 = 0 ∧ pos p.segments.length = 9 ∧
        ∀ i (hi : i < p.segments.length),
          SegmentAt (str "a%%%n{<5}") (pos i) (pos (i + 1)) p.segments[i] := by
  obtain ⟨p, hp⟩ : ∃ p, parse (str "a%%%n{<5}") { } = .ok p :=
    Option.isSome_iff_exists.mp (by decide +kernel) |>.imp fun _ => toOption_eq_some.mp
  obtain ⟨few, pos, first, last, pieces⟩ := segments_tile_text (by decide) hp
  exact ⟨p, hp, few, pos, first, last, pieces⟩

end Logrin.Pattern
