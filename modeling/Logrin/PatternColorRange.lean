import Logrin.PatternColorSpec

/-!
The range check of colour components. The sum of a component's digits is taken in 16 bits and
compared with 255 after the last digit, so a number of 65536 or more can pass.
-/

namespace Logrin.Pattern
open Logrin.Library

def digitRuns (t : Bytes) : List Bytes :=
  (t.splitOnP fun c => !isDigit c).filter fun run => !run.isEmpty

/-- The specifications that are read as components: a comma, and no `#` first. -/
def CommaForm (spec : Bytes) : Prop := ch ',' ∈ trim spec ∧ (trim spec).head? ≠ some (ch '#')

/-- Three components of at most 255 in 16 bits, of which one is greater. -/
def Wraps (spec : Bytes) : Prop :=
  ∃ d₁ d₂ d₃, ThreeComponents (trim spec) d₁ d₂ d₃ ∧
    (∀ d ∈ [d₁, d₂, d₃], valueOf d % 2 ^ 16 ≤ 255) ∧ ∃ d ∈ [d₁, d₂, d₃], 255 < valueOf d

/-- The components returned are the numbers that the runs of digits denote. -/
def ComponentsExact (spec : Bytes) : Prop :=
  CommaForm spec → ∀ rgb, parseColorSpec spec = .ok rgb →
    (digitRuns spec).map valueOf = [rgb.red.toNat, rgb.green.toNat, rgb.blue.toNat]

/-- A run of digits that denotes more than 255 is refused. -/
def LargeRefused (spec : Bytes) : Prop :=
  CommaForm spec → (∃ run ∈ digitRuns spec, 255 < valueOf run) →
    ∀ rgb, parseColorSpec spec ≠ .ok rgb

section Runs
variable {s t text digits : Bytes}

theorem digitRuns_append_cons (s t : Bytes) {c : UInt8} (h : isDigit c = false) :
    digitRuns (s ++ c :: t) = digitRuns s ++ digitRuns t := by
  rw [digitRuns, List.splitOnP_append_cons s t (by simp [h]), List.filter_append]
  rfl

theorem digitRuns_blanks_append (blank : Blanks s) (t : Bytes) :
    digitRuns (s ++ t) = digitRuns t := by
  induction s with
  | nil => rfl
  | cons c s ih =>
      obtain ⟨first, others⟩ := List.forall_mem_cons.mp blank
      rw [List.cons_append, ← ih others]
      exact digitRuns_append_cons [] (s ++ t) (isDigit_of_isBlank first)

theorem digitRuns_append_blanks (s : Bytes) (blank : Blanks t) :
    digitRuns (s ++ t) = digitRuns s := by
  cases t with
  | nil => rw [List.append_nil]
  | cons c t =>
      obtain ⟨first, others⟩ := List.forall_mem_cons.mp blank
      have none : digitRuns t = [] := by
        have all := digitRuns_blanks_append others []
        rwa [List.append_nil] at all
      rw [digitRuns_append_cons s t (isDigit_of_isBlank first), none, List.append_nil]

theorem digitRuns_digits (some : digits ≠ []) (all : Digits digits) :
    digitRuns digits = [digits] := by
  have within : ∀ c ∈ digits, (!isDigit c) = false := by
    intro c member
    rw [isDigit_iff.mpr (all c member)]
    rfl
  rw [digitRuns, List.splitOnP_eq_singleton within]
  simp [some]

theorem digitRuns_component (h : Component text digits) : digitRuns text = [digits] := by
  obtain ⟨before, after, hbefore, hafter, some, all, rfl⟩ := h
  rw [digitRuns_append_blanks _ hafter, digitRuns_blanks_append hbefore,
    digitRuns_digits some all]

/-- The blanks around a specification hold no digits. -/
theorem digitRuns_trim (spec : Bytes) : digitRuns (trim spec) = digitRuns spec := by
  have front : Blanks (spec.takeWhile isBlank) := fun c member => List.mem_takeWhile_imp member
  have back : Blanks ((spec.dropWhile isBlank).reverse.takeWhile isBlank).reverse :=
    fun c member => List.mem_takeWhile_imp (List.mem_reverse.mp member)
  have whole : spec = spec.takeWhile isBlank ++ (trim spec ++
      ((spec.dropWhile isBlank).reverse.takeWhile isBlank).reverse) := by
    rw [trim, ← List.reverse_append, List.takeWhile_append_dropWhile, List.reverse_reverse,
      List.takeWhile_append_dropWhile]
  rw [congrArg digitRuns whole, digitRuns_blanks_append front, digitRuns_append_blanks _ back]

theorem digitRuns_three {d₁ d₂ d₃ : Bytes} (h : ThreeComponents t d₁ d₂ d₃) :
    digitRuns t = [d₁, d₂, d₃] := by
  obtain ⟨t₁, t₂, t₃, h₁, h₂, h₃, rfl | rfl⟩ := h
  · rw [digitRuns_append_cons _ _ (by decide), digitRuns_append_cons _ _ (by decide),
      digitRuns_component h₁, digitRuns_component h₂, digitRuns_component h₃]
    rfl
  · rw [digitRuns_append_cons _ _ (by decide), digitRuns_append_cons _ _ (by decide),
      digitRuns_append_cons _ _ (by decide), digitRuns_component h₁, digitRuns_component h₂,
      digitRuns_component h₃]
    rfl

end Runs

section Range
variable {spec : Bytes}

/-- Components that pass the check are returned, each reduced to 8 bits. -/
theorem three_read {d₁ d₂ d₃ : Bytes} (three : ThreeComponents (trim spec) d₁ d₂ d₃)
    (small : ∀ d ∈ [d₁, d₂, d₃], valueOf d % 2 ^ 16 ≤ 255) :
    parseColorSpec spec = .ok ⟨componentOf d₁, componentOf d₂, componentOf d₃⟩ := by
  simp only [List.forall_mem_cons] at small
  obtain ⟨small₁, small₂, small₃, _⟩ := small
  obtain ⟨t₁, t₂, t₃, h₁, h₂, h₃, plain | trailing⟩ := three
  · exact components_read h₁ h₂ h₃ small₁ small₂ small₃ plain
  · exact trailing_read h₁ h₂ h₃ small₁ small₂ small₃ trailing

theorem commaForm_of_three {d₁ d₂ d₃ : Bytes} (three : ThreeComponents (trim spec) d₁ d₂ d₃) :
    CommaForm spec := by
  obtain ⟨t₁, t₂, t₃, h₁, _, _, whole⟩ := three
  obtain ⟨tail, whole⟩ : ∃ tail, trim spec = t₁ ++ ch ',' :: tail := by
    obtain plain | trailing := whole
    · exact ⟨_, plain⟩
    · exact ⟨_, trailing⟩
  obtain ⟨c, more, shape, hash, comma⟩ := shape_of_component h₁ whole
  refine ⟨comma, ?_⟩
  rw [shape]
  exact fun same => hash (Option.some.inj same)

/-- What is accepted is three components in range, unless the specification wraps. -/
theorem accepted_small (form : CommaForm spec) {rgb : RGB} (h : parseColorSpec spec = .ok rgb)
    (fair : ¬ Wraps spec) :
    ∃ d₁ d₂ d₃, ThreeComponents (trim spec) d₁ d₂ d₃ ∧ (∀ d ∈ [d₁, d₂, d₃], valueOf d ≤ 255) ∧
      rgb = ⟨componentOf d₁, componentOf d₂, componentOf d₃⟩ := by
  obtain ⟨d₁, d₂, d₃, three, small⟩ := accepted_components form.1 form.2 h
  refine ⟨d₁, d₂, d₃, three, ?_, Except.ok.inj (h.symm.trans (three_read three small))⟩
  intro d member
  apply Nat.le_of_not_lt
  intro large
  exact fair ⟨d₁, d₂, d₃, three, small, d, member, large⟩

theorem componentOf_toNat {digits : Bytes} (small : valueOf digits ≤ 255) :
    (componentOf digits).toNat = valueOf digits := by
  rw [componentOf_eq small, UInt8.toNat_ofNat']
  exact Nat.mod_eq_of_lt (Nat.lt_succ_of_le small)

theorem componentsExact_iff (spec : Bytes) : ComponentsExact spec ↔ ¬ Wraps spec := by
  constructor
  · intro exact_ wraps
    obtain ⟨d₁, d₂, d₃, three, small, d, member, large⟩ := wraps
    have values := exact_ (commaForm_of_three three) _ (three_read three small)
    rw [← digitRuns_trim, digitRuns_three three] at values
    have bytes : ∀ n ∈ [d₁, d₂, d₃].map valueOf, n ≤ 255 := by
      rw [values]
      simp only [List.forall_mem_cons]
      exact ⟨Nat.le_of_lt_succ (UInt8.toNat_lt _), Nat.le_of_lt_succ (UInt8.toNat_lt _),
        Nat.le_of_lt_succ (UInt8.toNat_lt _), fun _ none => absurd none List.not_mem_nil⟩
    exact Nat.not_le_of_lt large (bytes _ (List.mem_map_of_mem member))
  · intro fair form rgb accepted
    obtain ⟨d₁, d₂, d₃, three, small, rfl⟩ := accepted_small form accepted fair
    simp only [List.forall_mem_cons] at small
    rw [← digitRuns_trim, digitRuns_three three]
    simp only [List.map_cons, List.map_nil, componentOf_toNat small.1,
      componentOf_toNat small.2.1, componentOf_toNat small.2.2.1]

theorem largeRefused_iff (spec : Bytes) : LargeRefused spec ↔ ¬ Wraps spec := by
  constructor
  · intro refused wraps
    obtain ⟨d₁, d₂, d₃, three, small, d, member, large⟩ := wraps
    refine refused (commaForm_of_three three) ⟨d, ?_, large⟩ _ (three_read three small)
    rwa [← digitRuns_trim, digitRuns_three three]
  · intro fair form run rgb accepted
    obtain ⟨d, member, large⟩ := run
    obtain ⟨d₁, d₂, d₃, three, small, _⟩ := accepted_small form accepted fair
    rw [← digitRuns_trim, digitRuns_three three] at member
    exact Nat.not_le_of_lt large (small d member)

/-- A component wraps exactly when three runs pass the check in 16 bits and one of them denotes
more than 255. -/
theorem color_components_exact_iff (spec : Bytes) :
    (ComponentsExact spec ∧ LargeRefused spec ↔ ¬ Wraps spec) ∧
      (ComponentsExact spec ↔ LargeRefused spec) := by
  have exact_ := componentsExact_iff spec
  have refused := largeRefused_iff spec
  refine ⟨⟨fun both => exact_.mp both.1, fun fair => ⟨exact_.mpr fair, refused.mpr fair⟩⟩, ?_⟩
  exact exact_.trans refused.symm

theorem color_components_can_wrap : ¬ ∀ spec, ComponentsExact spec := by
  intro always
  have accepted : parseColorSpec (str "65536,0,0") = .ok ⟨0, 0, 0⟩ := by decide +kernel
  have form : CommaForm (str "65536,0,0") := by
    constructor <;> decide +kernel
  have values := always _ form _ accepted
  revert values
  decide +kernel

end Range

end Logrin.Pattern
