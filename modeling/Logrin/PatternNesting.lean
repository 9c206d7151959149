import Logrin.PatternScan

/-!
Style nesting counted in naturals. The parser's counter never wraps, because each level is
opened by one of at most 64 segments.
-/

namespace Logrin.Pattern
open Logrin.Library

variable {input : Bytes} {config : ParseConfig}

def nest (depth : Nat) (kind : SegmentKind) : Nat :=
  if isStyleStart kind then depth + 1
  else if kind = .styleEnd then depth - 1
  else depth

/-- Style directives opened and not yet closed. -/
def nesting (kinds : List SegmentKind) : Nat := kinds.foldl nest 0

theorem nestStyle_toNat {kind : SegmentKind} {depth depth' : UInt8}
    (h : nestStyle config kind depth = .ok depth') (small : depth.toNat < 255) :
    depth'.toNat = nest depth.toNat kind := by
  simp only [nestStyle, nest] at h ⊢
  split at h
  · next start =>
      cases h
      rw [if_pos start, UInt8.toNat_add]
      exact Nat.mod_eq_of_lt (by simpa using Nat.add_lt_add_right small 1)
  · next start =>
      rw [if_neg start]
      split at h
      · next stop =>
          rw [if_pos stop]
          split at h
          · next zero =>
              split at h
              · cases h
                simp [zero]
              · cases h
          · next some =>
              cases h
              have pos : 1 ≤ depth := by
                rw [UInt8.le_iff_toNat_le]
                have ne : depth.toNat ≠ 0 := fun zero => some (UInt8.toNat_inj.mp zero)
                exact Nat.pos_of_ne_zero ne
              rw [UInt8.toNat_sub_of_le _ _ pos]
              rfl
      · next other =>
          cases h
          rw [if_neg other]

/-- The counter holds the nesting of the segments emitted so far. -/
structure Counted (e : Emitted) : Prop where
  depth : e.depth.toNat = nesting (e.segments.map Segment.kind)
  bound : e.depth.toNat ≤ e.segments.length

theorem Counted.start : Counted .start := ⟨rfl, Nat.le_refl 0⟩

theorem nesting_append (kinds : List SegmentKind) (kind : SegmentKind) :
    nesting (kinds ++ [kind]) = nest (nesting kinds) kind := by
  simp [nesting]

theorem nest_le (depth : Nat) (kind : SegmentKind) : nest depth kind ≤ depth + 1 := by
  simp only [nest]
  split
  · exact Nat.le_refl _
  · split <;> omega

theorem Counted.emits {e e' : Emitted} {t : Token} (counted : Counted e)
    (h : Emits input config e t e') : Counted e' := by
  obtain ⟨depth, bound⟩ := counted
  cases h with
  | literal | escape =>
      refine ⟨?_, Nat.le_trans bound (by simp)⟩
      rw [List.map_append, List.map_singleton, nesting_append]
      exact depth
  | directive room _ _ _ hnest =>
      have next := nestStyle_toNat hnest (by omega)
      refine ⟨?_, ?_⟩
      · rw [List.map_append, List.map_singleton, nesting_append, ← depth]
        exact next
      · simp only [List.length_append, List.length_singleton]
        rw [next]
        exact Nat.le_trans (nest_le _ _) (Nat.add_le_add_right bound 1)

theorem Counted.emitAll {e e' : Emitted} {ts : List Token} (counted : Counted e)
    (h : emitAll input config e ts = some e') : Counted e' := by
  induction ts generalizing e with
  | nil =>
      cases h
      exact counted
  | cons t ts ih =>
      obtain ⟨e₁, first, rest⟩ := Option.bind_eq_some_iff.mp h
      exact ih (counted.emits (emits_of_emit first)) rest

/-- Without a `%style:end` the nesting counts the openers. -/
theorem foldl_nest_of_open {kinds : List SegmentKind} (h : .styleEnd ∉ kinds) (depth : Nat) :
    kinds.foldl nest depth = depth + kinds.countP isStyleStart := by
  induction kinds generalizing depth with
  | nil => rfl
  | cons kind kinds ih =>
      obtain ⟨first, others⟩ := not_or.mp (mt List.mem_cons.mpr h)
      rw [List.foldl_cons, ih others, nest, List.countP_cons]
      split
      · omega
      · rw [if_neg (Ne.symm first)]
        omega

/-- A text accepted without relaxed nesting closes every style it opens. -/
theorem parse_balanced {p : ParsedPattern} (h : parse input config = .ok p)
    (strict : config.relaxedStyleNesting = false) :
    nesting (p.segments.map Segment.kind) = 0 := by
  obtain ⟨ts, e, _, emitted, checked, rfl⟩ := parse_ok h
  have counted := Counted.start.emitAll emitted
  rw [← counted.depth]
  simp only [checkNesting] at checked
  split at checked
  · cases checked
  · next closed =>
      have zero : e.depth = 0 := by simpa [strict] using closed
      rw [zero]
      rfl

end Logrin.Pattern
