import Logrin.Library.Bytes
import Mathlib.Data.List.Induction

/-!
Byte strings that are well-formed UTF-8.
-/

namespace Logrin.Library

def IsUtf8 (s : Bytes) : Prop := (ByteArray.mk s.toArray).IsValidUTF8

instance (s : Bytes) : Decidable (IsUtf8 s) :=
  inferInstanceAs (Decidable (ByteArray.IsValidUTF8 _))

theorem isUtf8_str (s : String) : IsUtf8 (str s) := by
  simp only [IsUtf8, str, Array.toArray_toList]
  exact s.isValidUTF8

theorem isUtf8_nil : IsUtf8 [] := isUtf8_str ""

theorem isUtf8_of_ascii {s : Bytes} (h : ∀ c ∈ s, c < 128) : IsUtf8 s := by
  induction s using List.reverseRecOn with
  | nil => exact isUtf8_nil
  | append_singleton s c ih =>
      obtain ⟨others, last⟩ := List.forall_mem_append.mp h
      have less := UInt8.lt_iff_toNat_lt.mp (last c List.mem_cons_self)
      have code : (Char.ofUInt8 c).val = c.toUInt32 := rfl
      have byte : (Char.ofUInt8 c).toUInt8 = c := by
        rw [Char.toUInt8, code, UInt8.toUInt8_toUInt32]
      have size : (Char.ofUInt8 c).utf8Size = 1 := by
        rw [Char.utf8Size, code, if_pos]
        rw [UInt32.le_iff_toNat_le, UInt8.toNat_toUInt32]
        exact Nat.le_of_lt_succ less
      have longer : ∀ bytes : Array UInt8, (ByteArray.mk bytes).push c = ⟨bytes.push c⟩ :=
        fun _ => rfl
      have pushed := (ih others).push size
      rw [byte, longer] at pushed
      rwa [IsUtf8, ← List.push_toArray]

section Split
variable {s t : Bytes} {c : UInt8}

/-- Well-formed text is the encoding of characters. -/
theorem isUtf8_iff : IsUtf8 s ↔ ∃ text : List Char, s = text.flatMap String.utf8EncodeChar := by
  constructor
  · intro h
    obtain ⟨text, same⟩ := h
    refine ⟨text, ?_⟩
    have bytes := congrArg (fun b : ByteArray => b.data.toList) same
    simpa [List.utf8Encode] using bytes
  · intro h
    obtain ⟨text, rfl⟩ := h
    refine ⟨text, ByteArray.ext ?_⟩
    rw [List.utf8Encode, List.data_toByteArray]

theorem IsUtf8.append (hs : IsUtf8 s) (ht : IsUtf8 t) : IsUtf8 (s ++ t) := by
  obtain ⟨text, rfl⟩ := isUtf8_iff.mp hs
  obtain ⟨more, rfl⟩ := isUtf8_iff.mp ht
  exact isUtf8_iff.mpr ⟨text ++ more, List.flatMap_append.symm⟩

/-- Only the encoding of an ASCII character holds an ASCII byte. -/
theorem encode_of_ascii {x : Char} (ascii : c < 128) (member : c ∈ String.utf8EncodeChar x) :
    String.utf8EncodeChar x = [c] := by
  have less := UInt8.lt_iff_toNat_lt.mp ascii
  have small : (128 : UInt8).toNat = 128 := rfl
  have high : ∀ n, 128 ≤ n → n < 256 → c ≠ UInt8.ofNat n := by
    intro n low bound same
    rw [same, UInt8.toNat_ofNat', Nat.mod_eq_of_lt bound] at less
    omega
  simp only [String.utf8EncodeChar] at member ⊢
  split at member
  · next one =>
      rw [if_pos one, List.mem_singleton.mp member]
  · exfalso
    split at member
    · simp only [List.mem_cons, List.not_mem_nil, or_false] at member
      obtain same | same := member <;> exact high _ (by omega) (by omega) same
    · split at member
      · simp only [List.mem_cons, List.not_mem_nil, or_false] at member
        obtain same | same | same := member <;> exact high _ (by omega) (by omega) same
      · simp only [List.mem_cons, List.not_mem_nil, or_false] at member
        obtain same | same | same | same := member <;> exact high _ (by omega) (by omega) same

/-- Well-formed text can be cut at an ASCII byte, and only well-formed texts meet there. -/
theorem isUtf8_append_cons (ascii : c < 128) : IsUtf8 (s ++ c :: t) ↔ IsUtf8 s ∧ IsUtf8 t := by
  constructor
  · intro h
    obtain ⟨text, same⟩ := isUtf8_iff.mp h
    clear h
    induction text generalizing s with
    | nil => simp at same
    | cons x text ih =>
        rw [List.flatMap_cons] at same
        have single : IsUtf8 (String.utf8EncodeChar x) := isUtf8_iff.mpr ⟨[x], by simp⟩
        have later {mid : Bytes} (first : s = String.utf8EncodeChar x ++ mid)
            (rest : text.flatMap String.utf8EncodeChar = mid ++ c :: t) : IsUtf8 s ∧ IsUtf8 t := by
          obtain ⟨before, after⟩ := ih rest.symm
          exact ⟨first ▸ single.append before, after⟩
        obtain ⟨mid, first, rest⟩ | ⟨mid, first, rest⟩ := List.append_eq_append_iff.mp same
        · cases mid with
          | nil =>
              have all : s = String.utf8EncodeChar x ++ [] := by simpa using first.symm
              exact later all rest.symm
          | cons d mid =>
              -- the cut is inside the encoding of `x`, so it is all of it
              obtain ⟨rfl, tail⟩ := List.cons_eq_cons.mp rest
              have member : c ∈ String.utf8EncodeChar x := by
                rw [first]
                exact List.mem_append_right _ List.mem_cons_self
              rw [encode_of_ascii ascii member] at first
              cases s with
              | nil =>
                  obtain rfl : mid = [] := (List.cons_eq_cons.mp first).2.symm
                  exact ⟨isUtf8_nil, isUtf8_iff.mpr ⟨text, tail⟩⟩
              | cons e s => simp at first
        · exact later first rest
  · intro h
    have single : IsUtf8 [c] := isUtf8_of_ascii (by simpa using ascii)
    exact h.1.append (single.append h.2)

theorem isUtf8_cons (ascii : c < 128) : IsUtf8 (c :: t) ↔ IsUtf8 t := by
  rw [← List.nil_append (c :: t), isUtf8_append_cons ascii]
  exact and_iff_right isUtf8_nil

theorem isUtf8_ascii_append (ascii : ∀ c ∈ s, c < 128) : IsUtf8 (s ++ t) ↔ IsUtf8 t := by
  induction s with
  | nil => exact Iff.rfl
  | cons c s ih =>
      obtain ⟨first, others⟩ := List.forall_mem_cons.mp ascii
      rw [List.cons_append, isUtf8_cons first, ih others]

/-- A character of one byte is ASCII. -/
theorem ascii_of_isUtf8 (h : IsUtf8 [c]) : c < 128 := by
  obtain ⟨text, same⟩ := isUtf8_iff.mp h
  cases text with
  | nil => cases same
  | cons x text =>
      rw [List.flatMap_cons, String.utf8EncodeChar] at same
      split at same
      · next one =>
          obtain ⟨rfl, _⟩ := List.cons_eq_cons.mp same
          rw [UInt8.lt_iff_toNat_lt, UInt8.toNat_ofNat', Nat.mod_eq_of_lt (by omega)]
          exact Nat.lt_succ_of_le one
      · have size := congrArg List.length same
        split at size
        · simp at size
        · split at size <;> simp at size

theorem isUtf8_flatMap {α : Type} {f : α → Bytes} {xs : List α} (h : ∀ x ∈ xs, IsUtf8 (f x)) :
    IsUtf8 (xs.flatMap f) := by
  induction xs with
  | nil => exact isUtf8_nil
  | cons x xs ih =>
      obtain ⟨first, others⟩ := List.forall_mem_cons.mp h
      rw [List.flatMap_cons]
      exact first.append (ih others)

theorem isUtf8_intercalate {xs : List Bytes} (sep : IsUtf8 s) (h : ∀ x ∈ xs, IsUtf8 x) :
    IsUtf8 (List.intercalate s xs) := by
  induction xs with
  | nil => exact isUtf8_nil
  | cons x xs ih =>
      obtain ⟨first, others⟩ := List.forall_mem_cons.mp h
      cases xs with
      | nil => simpa using first
      | cons y ys =>
          rw [List.intercalate_cons_cons]
          exact (first.append sep).append (ih others)

end Split

end Logrin.Library
