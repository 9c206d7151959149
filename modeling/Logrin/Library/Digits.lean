import Logrin.Library.Bytes
import Mathlib.Algebra.Group.Nat.Defs

/-!
Strings of decimal digits, the numbers they denote, and what is left of such a number in
an accumulator of 16 bits.
-/

namespace Logrin.Library

def Digits (s : Bytes) : Prop := ∀ c ∈ s, ch '0' ≤ c ∧ c ≤ ch '9'

instance (s : Bytes) : Decidable (Digits s) := List.decidableBAll _ s

/-- The number the digits denote when `n` has been read before them. -/
def valueFrom (n : Nat) : Bytes → Nat
  | [] => n
  | c :: s => valueFrom (10 * n + (c - ch '0').toNat) s

/-- The number a string of digits denotes. -/
def valueOf (s : Bytes) : Nat := valueFrom 0 s

theorem digits_cons {c : UInt8} {s : Bytes} :
    Digits (c :: s) ↔ (ch '0' ≤ c ∧ c ≤ ch '9') ∧ Digits s :=
  List.forall_mem_cons

theorem digits_nil : Digits [] := fun _ member => absurd member List.not_mem_nil

/-- Reading on from a remainder gives the same remainder. -/
theorem valueFrom_mod (n m : Nat) (s : Bytes) : valueFrom (n % m) s % m = valueFrom n s % m := by
  induction s generalizing n with
  | nil => exact Nat.mod_mod n m
  | cons c s ih =>
      simp only [valueFrom]
      rw [← ih, ← ih (10 * n + _), Nat.add_mod, Nat.mul_mod, Nat.mod_mod, ← Nat.mul_mod,
        ← Nat.add_mod]

/-- Digits read into an accumulator of 16 bits, from its value `n`. -/
def read16 (n : UInt16) : Bytes → UInt16
  | [] => n
  | c :: s => read16 (n * 10 + (c - ch '0').toUInt16) s

theorem read16_toNat (n : UInt16) (s : Bytes) :
    (read16 n s).toNat = valueFrom n.toNat s % 2 ^ 16 := by
  induction s generalizing n with
  | nil => exact (Nat.mod_eq_of_lt n.toNat_lt).symm
  | cons c s ih =>
      rw [read16, ih, valueFrom, ← valueFrom_mod (10 * n.toNat + _),
        ← valueFrom_mod (UInt16.toNat _)]
      congr 2
      simp only [UInt16.toNat_add, UInt16.toNat_mul, UInt8.toNat_toUInt16, UInt16.reduceToNat]
      omega

theorem digit_ch {c : Char} (h : c.isDigit = true) :
    (ch '0' ≤ ch c ∧ ch c ≤ ch '9') ∧ (ch c - ch '0').toNat = c.toNat - '0'.toNat := by
  have low : 48 ≤ c.toNat := by
    simp only [Char.isDigit, Bool.and_eq_true, decide_eq_true_eq] at h
    exact h.1
  have high : c.toNat ≤ 57 := by
    simp only [Char.isDigit, Bool.and_eq_true, decide_eq_true_eq] at h
    exact h.2
  have all : ∀ n < 58, 48 ≤ n → (ch '0' ≤ UInt8.ofNat n ∧ UInt8.ofNat n ≤ ch '9') ∧
      (UInt8.ofNat n - ch '0').toNat = n - '0'.toNat := by
    decide
  exact all c.toNat (Nat.lt_succ_of_le high) low

theorem valueFrom_map_ch (n : Nat) {cs : List Char} (h : ∀ c ∈ cs, c.isDigit = true) :
    valueFrom n (cs.map ch) = Nat.ofDigitChars 10 cs n := by
  induction cs generalizing n with
  | nil => rfl
  | cons c cs ih =>
      obtain ⟨first, others⟩ := List.forall_mem_cons.mp h
      rw [List.map_cons, valueFrom, (digit_ch first).2, Nat.ofDigitChars_cons, ih _ others]

theorem digits_decimal (n : Nat) : Digits (decimal n) := by
  intro c member
  obtain ⟨d, hd, rfl⟩ := List.mem_map.mp member
  exact (digit_ch (Nat.isDigit_of_mem_toDigits (by decide) (by decide) hd)).1

/-- The decimal notation of a number denotes it. -/
theorem valueOf_decimal (n : Nat) : valueOf (decimal n) = n := by
  rw [valueOf, decimal, valueFrom_map_ch 0 fun c hc =>
    Nat.isDigit_of_mem_toDigits (by decide) (by decide) hc]
  exact Nat.ofDigitChars_ten_toDigits

theorem decimal_ne_nil (n : Nat) : decimal n ≠ [] := by
  intro none
  exact Nat.toDigits_ne_nil (List.map_eq_nil_iff.mp none)

end Logrin.Library
