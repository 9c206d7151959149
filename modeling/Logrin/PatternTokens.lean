import Logrin.PatternTiling
import Mathlib.Data.List.Chain

/-!
The tokens of a text are the one way to lay tokens over it, without two literal runs next to
each other: what the scan finds is so laid, and whatever is so laid is what the scan finds.
-/

namespace Logrin.Pattern
open Logrin.Library

variable {input : Bytes} {len : Nat}

namespace Token

def isLiteral : Token → Bool
  | .literal _ _ => true
  | .escape _ | .directive _ _ _ => false

end Token

/-- No two literal runs stand next to each other. -/
def Separate (ts : List Token) : Prop := ts.IsChain fun s t => ¬ (s.isLiteral ∧ t.isLiteral)

theorem separate_cons {t : Token} {ts : List Token} (other : t.isLiteral = false)
    (h : Separate ts) : Separate (t :: ts) :=
  List.isChain_cons.mpr ⟨fun _ _ both => by simp [other] at both, h⟩

section Laid
variable {a b : Nat} {t : Token} {ts : List Token}

theorem TokenAt.literal_of_plain (h : TokenAt input len a b t)
    (plain : input.getD a 0 = ch '%' → len ≤ a + 1) :
    t = .literal a b ∧ PlainRun input len a b := by
  cases h with
  | literal run => exact ⟨rfl, run⟩
  | escape first more _ => exact absurd (plain first) (Nat.not_le_of_lt more)
  | directive first more _ _ => exact absurd (plain first) (Nat.not_le_of_lt more)

theorem tryMatchKeyword_percent (rest : Bytes) : (tryMatchKeyword (ch '%' :: rest)).1 = 0 := by
  have heads : ∀ kw ∈ kKeywords, kw.1.head? ≠ some (ch '%') ∧ kw.1 ≠ [] := by decide +kernel
  apply Nat.eq_zero_of_not_pos
  intro found
  obtain ⟨name, mem, _, pre⟩ := tryMatchKeyword_spec found
  obtain ⟨other, some⟩ := heads _ mem
  obtain ⟨c, name', rfl⟩ := List.exists_cons_of_ne_nil some
  obtain ⟨rfl, _⟩ := List.cons_prefix_cons.mp pre
  exact other rfl

theorem readName_percent (more : a + 1 < input.length) (second : input.getD (a + 1) 0 = ch '%') :
    readName input a = some (none, a + 2) := by
  have rest : input.drop (a + 1) = ch '%' :: input.drop (a + 2) := by
    rw [List.drop_eq_getElem_cons more, ← second, List.getD_eq_getElem?_getD,
      List.getElem?_eq_getElem more, Option.getD_some]
  simp only [readName, rest, tryMatchKeyword_percent, Nat.lt_irrefl, if_false, second, if_true]

/-- The iteration at a `%` that is not the last byte finds the token laid there. -/
theorem TokenAt.advance {c : Cursor} (h : TokenAt input input.length c.pos b t)
    (percent : input.getD c.pos 0 = ch '%') (more : c.pos + 1 < input.length) :
    advance input input.length c = some (.after b, c.literalRun c.pos ++ [t]) := by
  have inside : ¬ (input.getD c.pos 0 ≠ ch '%' || decide (input.length ≤ c.pos + 1)) = true := by
    simp only [percent, ne_eq, not_true, decide_false, Bool.false_or, decide_eq_true_eq]
    exact Nat.not_le_of_lt more
  rw [Pattern.advance, if_neg inside]
  cases h with
  | literal run =>
      have last := run.plain c.pos (Nat.le_refl c.pos) run.some percent
      exact absurd last (Nat.not_le_of_lt more)
  | escape _ _ second => rw [readName_percent more second]; rfl
  | directive _ _ name read => simp only [name, Option.bind_some, read, Option.map_some]

/-- A literal run begins where only plain bytes follow, and goes on past all of them. -/
theorem run_of_tiles {n stop : Nat} (run : PlainRun input len a n)
    (tiles : Tiles (TokenAt input len) a ts stop) (separate : Separate ts) (past : n ≤ stop) :
    ∃ b rest, ts = .literal a b :: rest ∧ n ≤ b ∧ PlainRun input len a b ∧
      Tiles (TokenAt input len) b rest stop := by
  cases tiles with
  | nil => exact absurd run.some (Nat.not_lt_of_le past)
  | @cons _ b _ t rest at_ others =>
      obtain ⟨rfl, first⟩ := at_.literal_of_plain (run.plain a (Nat.le_refl a) run.some)
      refine ⟨b, rest, rfl, ?_, first, others⟩
      -- a run that stops earlier would be followed by another one
      apply Nat.le_of_not_lt
      intro early
      cases others with
      | nil => exact Nat.not_le_of_lt early past
      | cons at_' _ =>
          obtain ⟨rfl, _⟩ := at_'.literal_of_plain (run.plain b (Nat.le_of_lt first.some) early)
          exact (List.isChain_cons.mp separate).1 _ rfl ⟨rfl, rfl⟩

end Laid

section Complete
variable {c : Cursor} {ts : List Token}

/-- At the end of the text only the literal run in progress is left. -/
theorem literalRun_of_tiles (short : input.length < 2 ^ 32)
    (plain : c.Plain input input.length) (done : c.pos = input.length)
    (tiles : Tiles (TokenAt input input.length) c.front ts input.length)
    (separate : Separate ts) : c.literalRun input.length = ts := by
  have ends : ∀ {rest}, Tiles (TokenAt input input.length) input.length rest input.length →
      rest = [] := by
    intro rest none
    cases none with
    | nil => rfl
    | cons at_ others =>
        have first := at_.inside short
        omega
  cases hin : c.inLiteral with
  | false =>
      rw [Cursor.front, hin, if_neg Bool.false_ne_true, done] at tiles
      rw [ends tiles, Cursor.literalRun, hin]
      rfl
  | true =>
      have run := plain hin
      rw [Cursor.front, hin, if_pos rfl] at tiles
      obtain ⟨b, rest, rfl, past, whole, others⟩ :=
        run_of_tiles run tiles separate (Nat.le_of_eq done)
      obtain rfl : b = input.length := Nat.le_antisymm whole.fits (done ▸ past)
      rw [ends others, Cursor.literalRun, hin, Bool.true_and,
        if_pos (decide_eq_true whole.some)]

/-- At a `%` that is not the last byte the literal run in progress ends, and a token begins. -/
theorem split_at_percent (plain : c.Plain input input.length)
    (percent : input.getD c.pos 0 = ch '%') (more : c.pos + 1 < input.length)
    (tiles : Tiles (TokenAt input input.length) c.front ts input.length)
    (separate : Separate ts) :
    ∃ b t rest, ts = c.literalRun c.pos ++ t :: rest ∧
      TokenAt input input.length c.pos b t ∧
      Tiles (TokenAt input input.length) b rest input.length ∧ Separate rest := by
  have here : ∀ {a us}, a + 1 < input.length →
      Tiles (TokenAt input input.length) a us input.length → Separate us →
      ∃ b t rest, us = t :: rest ∧ TokenAt input input.length a b t ∧
        Tiles (TokenAt input input.length) b rest input.length ∧ Separate rest := by
    intro a us before laid apart
    cases laid with
    | nil => omega
    | cons at_ others => exact ⟨_, _, _, rfl, at_, others, (List.isChain_cons.mp apart).2⟩
  cases hin : c.inLiteral with
  | false =>
      rw [Cursor.front, hin, if_neg Bool.false_ne_true] at tiles
      rw [Cursor.literalRun, hin]
      exact here more tiles separate
  | true =>
      have run := plain hin
      rw [Cursor.front, hin, if_pos rfl] at tiles
      obtain ⟨b, rest, rfl, past, whole, others⟩ :=
        run_of_tiles run tiles separate (Nat.le_of_lt (by omega))
      have stop : b = c.pos := by
        apply Nat.le_antisymm _ past
        apply Nat.le_of_not_lt
        intro beyond
        have last := whole.plain c.pos (Nat.le_of_lt run.some) beyond percent
        omega
      subst stop
      obtain ⟨b, t, rest, rfl, at_, tail, apart⟩ :=
        here more others (List.isChain_cons.mp separate).2
      rw [Cursor.literalRun, hin, Bool.true_and, if_pos (decide_eq_true run.some)]
      exact ⟨b, t, rest, rfl, at_, tail, apart⟩

/-- What is laid over the rest of the text is what the scan finds there. -/
theorem scanLoop_of_tiles (short : input.length < 2 ^ 32) {fuel : Nat}
    (plain : c.Plain input input.length) (fits : c.pos ≤ input.length)
    (enough : input.length ≤ c.pos + fuel)
    (tiles : Tiles (TokenAt input input.length) c.front ts input.length)
    (separate : Separate ts) :
    ∃ c' found, scanLoop input input.length fuel c = some (c', found) ∧
      found ++ c'.literalRun input.length = ts := by
  induction fuel generalizing c ts with
  | zero => exact ⟨c, [], rfl, literalRun_of_tiles short plain (by omega) tiles separate⟩
  | succ fuel ih =>
      simp only [scanLoop]
      split
      case isFalse done =>
          exact ⟨c, [], rfl, literalRun_of_tiles short plain (by omega) tiles separate⟩
      case isTrue inside =>
          by_cases here : input.getD c.pos 0 = ch '%' ∧ c.pos + 1 < input.length
          · obtain ⟨percent, more⟩ := here
            obtain ⟨b, t, rest, rfl, at_, others, apart⟩ :=
              split_at_percent plain percent more tiles separate
            obtain ⟨size, last⟩ := at_.inside short
            obtain ⟨c', found, scan, whole⟩ :=
              ih (c := .after b) (by simp [Cursor.Plain, Cursor.after]) last (by
                simp only [Cursor.after]
                omega) others apart
            refine ⟨c', _, by rw [at_.advance percent more, Option.bind_some, scan]; rfl, ?_⟩
            rw [List.append_assoc, whole, List.append_assoc]
            rfl
          · have skip : input.getD c.pos 0 = ch '%' → input.length ≤ c.pos + 1 :=
              fun percent => Nat.le_of_not_lt fun more => here ⟨percent, more⟩
            obtain ⟨plain', _⟩ := (Advances.plain skip).tiles inside plain
            have ahead : advance input input.length c = some ({
                pos := c.pos + 1
                literalStart := if c.inLiteral then c.literalStart else c.pos
                inLiteral := true }, []) := by
              rw [advance, if_pos]
              by_cases percent : input.getD c.pos 0 = ch '%'
              · simp [skip percent]
              · simp only [ne_eq, percent, not_false_eq_true, decide_true, Bool.true_or]
            obtain ⟨c', found, scan, whole⟩ := ih plain' inside (by simp only; omega)
              (by simpa [Cursor.front] using tiles) separate
            exact ⟨c', found, by rw [ahead, Option.bind_some, scan]; rfl, whole⟩

/-- A text has the tokens that are laid over it. -/
theorem tokens_of_tiles (short : input.length < 2 ^ 32)
    (tiles : Tiles (TokenAt input input.length) 0 ts input.length) (separate : Separate ts) :
    tokens input = some ts := by
  have enough : input.length ≤ Cursor.start.pos + parseFuel input.length := by
    simp only [parseFuel]
    omega
  obtain ⟨c', found, scan, whole⟩ := scanLoop_of_tiles (c := .start) short
    (by simp [Cursor.Plain, Cursor.start]) (Nat.zero_le _) enough tiles separate
  simp only [tokens, u32_of_lt short, scan, Option.map_some, whole]

end Complete

section Sound
variable {c c' : Cursor} {ts : List Token}

theorem separate_run (c : Cursor) (stop : Nat) : Separate (c.literalRun stop) := by
  rw [Cursor.literalRun]
  split
  · exact List.isChain_singleton _
  · exact List.isChain_nil

/-- An iteration finds nothing, or the run before a token of another kind and the token. -/
theorem advance_separate (h : advance input len c = some (c', ts)) :
    ts = [] ∨ ∃ t, t.isLiteral = false ∧ ts = c.literalRun c.pos ++ [t] := by
  simp only [advance] at h
  split at h
  · cases h
    exact .inl rfl
  · obtain ⟨⟨name, nameEnd⟩, _, h⟩ := Option.bind_eq_some_iff.mp h
    cases name with
    | none =>
        cases h
        exact .inr ⟨_, rfl, rfl⟩
    | some kind =>
        obtain ⟨block, _, h⟩ := Option.map_eq_some_iff.mp h
        cases h
        exact .inr ⟨_, rfl, rfl⟩

theorem separate_token (c : Cursor) (stop : Nat) {t : Token} (other : t.isLiteral = false)
    (h : Separate ts) : Separate (c.literalRun stop ++ t :: ts) := by
  apply List.IsChain.append (separate_run c stop) (separate_cons other h)
  intro _ _ y head both
  cases head
  simp [other] at both

/-- A scan finds no two literal runs next to each other. -/
theorem scanLoop_separate {fuel : Nat} (h : scanLoop input len fuel c = some (c', ts)) :
    Separate (ts ++ c'.literalRun len) := by
  induction fuel generalizing c ts with
  | zero =>
      obtain ⟨rfl, rfl⟩ := Prod.mk.inj (Option.some.inj h)
      exact separate_run c len
  | succ fuel ih =>
      simp only [scanLoop] at h
      split at h
      · next before =>
          obtain ⟨⟨c₁, ts₁⟩, first, h⟩ := Option.bind_eq_some_iff.mp h
          obtain ⟨⟨c₂, ts₂⟩, rest, same⟩ := Option.map_eq_some_iff.mp h
          obtain ⟨rfl, rfl⟩ := Prod.mk.inj same
          have later : Separate (ts₂ ++ c₂.literalRun len) := ih rest
          obtain rfl | ⟨t, other, rfl⟩ := advance_separate first
          · exact later
          · simp only [List.append_assoc, List.singleton_append]
            exact separate_token c c.pos other later
      · obtain ⟨rfl, rfl⟩ := Prod.mk.inj (Option.some.inj h)
        exact separate_run c len

theorem tokens_separate (h : tokens input = some ts) : Separate ts := by
  simp only [tokens] at h
  obtain ⟨⟨c, found⟩, scan, rfl⟩ := Option.map_eq_some_iff.mp h
  exact scanLoop_separate scan

/-- The tokens of a text are the one way to lay separate tokens over it. -/
theorem tokens_iff_tiles (short : input.length < 2 ^ 32) (few : ts.length ≤ 64) :
    tokens input = some ts ↔
      Tiles (TokenAt input input.length) 0 ts input.length ∧ Separate ts := by
  constructor
  · intro h
    obtain ⟨stop, past, tiles⟩ := tokens_tile h few
    rw [u32_of_lt short] at past tiles
    have last : stop ≤ input.length :=
      tiles.le (Nat.zero_le _) fun _ _ _ at_ => (at_.inside short).2
    obtain rfl := Nat.le_antisymm last past
    exact ⟨tiles, tokens_separate h⟩
  · exact fun laid => tokens_of_tiles short laid.1 laid.2

end Sound

end Logrin.Pattern
