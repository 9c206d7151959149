import Mathlib.Data.List.Basic

/-!
Byte strings as lists, their literals, and the decimal notation of naturals.
-/

namespace Logrin.Library

abbrev Bytes := List UInt8

/-- The byte of an ASCII character. -/
def ch (c : Char) : UInt8 := UInt8.ofNat c.toNat

/-- The UTF-8 bytes of a string literal. -/
def str (s : String) : Bytes := s.toUTF8.data.toList

theorem forall_byte {P : UInt8 → Prop} (h : ∀ k : Fin 256, P (UInt8.ofFin k)) (c : UInt8) : P c :=
  h c.toFin

theorem dropWhile_of_head {p : UInt8 → Bool} {s : Bytes} (h : ∀ c ∈ s.head?, p c = false) :
    s.dropWhile p = s ∧ s.takeWhile p = [] := by
  cases s with
  | nil => exact ⟨rfl, rfl⟩
  | cons c s => simp [h c rfl]

def decimal (n : Nat) : Bytes := (Nat.toDigits 10 n).map ch

def decimalInt (n : Int) : Bytes := if n < 0 then ch '-' :: decimal n.natAbs else decimal n.natAbs

/-- Lower-case hexadecimal. -/
def hexadecimal (n : Nat) : Bytes := (Nat.toDigits 16 n).map ch

/-- What a C string keeps of the bytes: those before the first NUL. -/
def cString (s : Bytes) : Bytes := s.takeWhile fun c => c != 0

theorem cString_eq_self_iff {s : Bytes} : cString s = s ↔ 0 ∉ s := by
  induction s with
  | nil => simp [cString]
  | cons c s ih =>
      rw [cString] at ih ⊢
      by_cases zero : c = 0
      · simp [zero]
      · simp [zero, Ne.symm zero, ih]

/-- A C string as long as the text it was made of is that text. -/
theorem cString_whole {s t : Bytes} (long : s.length ≤ t.length) (same : cString s = t) :
    s = t ∧ 0 ∉ t := by
  have whole : cString s = s := by
    apply (List.takeWhile_prefix _).eq_of_length_le
    rw [← cString, same]
    exact long
  obtain rfl : s = t := whole.symm.trans same
  exact ⟨rfl, cString_eq_self_iff.mp whole⟩

/-- The position of the last occurrence of a byte. -/
def rfind (c : UInt8) : Bytes → Option Nat
  | [] => none
  | b :: s =>
      match rfind c s with
      | some i => some (i + 1)
      | none => if b = c then some 0 else none

theorem rfind_eq_none {c : UInt8} {s : Bytes} (h : c ∉ s) : rfind c s = none := by
  induction s with
  | nil => rfl
  | cons b s ih =>
      obtain ⟨other, others⟩ := not_or.mp (mt List.mem_cons.mpr h)
      rw [rfind, ih others, if_neg (Ne.symm other)]

/-- The last occurrence is the one with none after it. -/
theorem rfind_append_cons {c : UInt8} {t : Bytes} (h : c ∉ t) (s : Bytes) :
    rfind c (s ++ c :: t) = some s.length := by
  induction s with
  | nil => rw [List.nil_append, rfind, rfind_eq_none h, if_pos rfl]; rfl
  | cons b s ih => rw [List.cons_append, rfind, ih]; rfl

/-- The bytes at positions `start`, ..., `stop - 1`. -/
def slice (s : Bytes) (start stop : Nat) : Bytes := (s.drop start).take (stop - start)

section
variable {s : Bytes} {a b c : Nat}

@[simp] theorem length_slice : (slice s a b).length = min (b - a) (s.length - a) := by
  simp [slice]

theorem slice_add (s : Bytes) (a n : Nat) : slice s a (a + n) = (s.drop a).take n := by
  rw [slice, Nat.add_sub_cancel_left]

theorem slice_append (hab : a ≤ b) (hbc : b ≤ c) : slice s a b ++ slice s b c = slice s a c := by
  have split : c - a = (b - a) + (c - b) := by omega
  have base : a + (b - a) = b := by omega
  simp only [slice, split, List.take_add, List.drop_drop, base]

theorem take_slice (n : Nat) (hb : a + n ≤ b) : (slice s a b).take n = slice s a (a + n) := by
  have fits : min n (b - a) = n := by omega
  simp only [slice, List.take_take, fits, Nat.add_sub_cancel_left]

theorem slice_succ (h : a < s.length) : slice s a (a + 1) = [s.getD a 0] := by
  rw [slice, List.drop_eq_getElem_cons h, Nat.add_sub_cancel_left, List.take_succ_cons,
    List.take_zero, List.getD_eq_getElem?_getD, List.getElem?_eq_getElem h, Option.getD_some]

theorem slice_of_isPrefix {name : Bytes} (h : name <+: s.drop a) :
    slice s a (a + name.length) = name := by
  rw [slice, Nat.add_sub_cancel_left]
  exact (List.prefix_iff_eq_take.mp h).symm

end

end Logrin.Library
