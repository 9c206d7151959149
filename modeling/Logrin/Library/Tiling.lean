import Mathlib.Data.List.Forall2

/-!
Lists of pieces laid end to end over a range of positions.
-/

namespace Logrin.Library

universe u v
variable {τ : Type u} {υ : Type v} {Piece : Nat → Nat → τ → Prop} {a b c : Nat} {t : τ}
  {ts us : List τ}

/-- The pieces of the list fill the positions from `a` up to `c`, each in its own range. -/
inductive Tiles (Piece : Nat → Nat → τ → Prop) : Nat → List τ → Nat → Prop
  | nil (a : Nat) : Tiles Piece a [] a
  | cons {a b c : Nat} {t : τ} {ts : List τ} :
      Piece a b t → Tiles Piece b ts c → Tiles Piece a (t :: ts) c

namespace Tiles

theorem singleton (h : Piece a b t) : Tiles Piece a [t] b := .cons h (.nil b)

theorem append (h : Tiles Piece a ts b) (k : Tiles Piece b us c) :
    Tiles Piece a (ts ++ us) c := by
  induction h with
  | nil a => exact k
  | cons piece rest ih => exact .cons piece (ih k)

theorem split (h : Tiles Piece a (ts ++ us) c) :
    ∃ b, Tiles Piece a ts b ∧ Tiles Piece b us c := by
  induction ts generalizing a with
  | nil => exact ⟨a, .nil a, h⟩
  | cons t ts ih =>
      cases h with
      | cons piece rest =>
          obtain ⟨b, first, last⟩ := ih rest
          exact ⟨b, .cons piece first, last⟩

/-- Move every piece to another place. -/
theorem map {Piece' : Nat → Nat → υ → Prop} (place : Nat → Nat) (f : τ → υ)
    (h : Tiles Piece a ts c)
    (keep : ∀ a b t, t ∈ ts → Piece a b t → Piece' (place a) (place b) (f t)) :
    Tiles Piece' (place a) (ts.map f) (place c) := by
  induction h with
  | nil a => exact .nil (place a)
  | cons piece rest ih =>
      refine .cons (keep _ _ _ List.mem_cons_self piece) (ih ?_)
      exact fun a b t member => keep a b t (List.mem_cons_of_mem _ member)

/-- Each element of the list lies somewhere. -/
theorem mem (h : Tiles Piece a ts c) (member : t ∈ ts) : ∃ b b', Piece b b' t := by
  induction h with
  | nil => cases member
  | cons piece rest ih =>
      obtain rfl | later := List.mem_cons.mp member
      · exact ⟨_, _, piece⟩
      · exact ih later

/-- What holds of a piece in its place carries over to a relation between two lists. -/
theorem forall₂ {R S : τ → υ → Prop} {vs : List υ} (h : Tiles Piece a ts c)
    (related : List.Forall₂ R ts vs) (keep : ∀ a b t v, Piece a b t → R t v → S t v) :
    List.Forall₂ S ts vs := by
  induction related generalizing a with
  | nil => exact .nil
  | cons hd tl ih =>
      cases h with
      | cons piece rest => exact .cons (keep _ _ _ _ piece hd) (ih rest)

/-- Replace every piece by one it is related to. -/
theorem transport {Piece' : Nat → Nat → υ → Prop} {R : τ → υ → Prop} {vs : List υ}
    (h : Tiles Piece a ts c) (related : List.Forall₂ R ts vs)
    (keep : ∀ a b t v, Piece a b t → R t v → Piece' a b v) : Tiles Piece' a vs c := by
  induction related generalizing a with
  | nil =>
      cases h
      exact .nil _
  | cons hd tl ih =>
      cases h with
      | cons piece rest => exact .cons (keep _ _ _ _ piece hd) (ih rest)

/-- The last piece ends within any bound on all pieces. -/
theorem le {n : Nat} (h : Tiles Piece a ts c) (start : a ≤ n)
    (bound : ∀ a b t, Piece a b t → b ≤ n) : c ≤ n := by
  induction h with
  | nil a => exact start
  | cons piece rest ih => exact ih (bound _ _ _ piece)

/-- The positions at which the pieces begin, with the end of the last one. -/
theorem positions (h : Tiles Piece a ts c) :
    ∃ pos : Nat → Nat, pos 0 = a ∧ pos ts.length = c ∧
      ∀ i (hi : i < ts.length), Piece (pos i) (pos (i + 1)) ts[i] := by
  induction h with
  | nil a => exact ⟨fun _ => a, rfl, rfl, fun i hi => absurd hi (Nat.not_lt_zero i)⟩
  | @cons a b c t ts piece rest ih =>
      obtain ⟨pos, first, last, pieces⟩ := ih
      refine ⟨fun i => i.casesOn a pos, rfl, last, ?_⟩
      intro i hi
      cases i with
      | zero =>
          subst first
          exact piece
      | succ i => exact pieces i (Nat.lt_of_succ_lt_succ hi)

end Tiles

theorem forall_of_forall₂ {Q : υ → Prop} {vs : List υ} (h : List.Forall₂ (fun _ v => Q v) ts vs) :
    ∀ v ∈ vs, Q v := by
  induction h with
  | nil => simp
  | cons hd tl ih => exact List.forall_mem_cons.mpr ⟨hd, ih⟩

theorem forall₂_iff_forall {R : τ → υ → Prop} {Q : τ → Prop} {vs : List υ}
    (h : List.Forall₂ (fun t v => R t v ↔ Q t) ts vs) :
    List.Forall₂ R ts vs ↔ ∀ t ∈ ts, Q t := by
  induction h with
  | nil => simp
  | cons hd tl ih => simp [List.forall₂_cons, hd, ih]

end Logrin.Library
