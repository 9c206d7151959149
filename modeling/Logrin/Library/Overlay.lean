import Mathlib.Data.List.Induction
import Mathlib.Data.List.ReduceOption
import Mathlib.Logic.Function.Basic

/-!
Settings laid over one another, each for one key. A close either ends the innermost
setting, on a stack, or every setting, in a flat state that keeps no stack. The settings
made since the last close decide whether the two can be told apart.
-/

namespace Logrin.Library

universe u v

/-- The last element of a `flatMap` comes from the last element with a non-empty image. -/
theorem getLast?_flatMap_eq_some {α : Type u} {β : Type v} {f : α → List β} {l : List α} {x : β} :
    (l.flatMap f).getLast? = some x ↔
      ∃ before a after, l = before ++ a :: after ∧ (f a).getLast? = some x ∧
        ∀ b ∈ after, f b = [] := by
  induction l using List.reverseRecOn with
  | nil => simp
  | append_singleton l a ih =>
      rw [List.flatMap_append, List.flatMap_singleton, List.getLast?_append]
      constructor
      · intro last
        cases ha : (f a).getLast? with
        | some y =>
            rw [ha, Option.some_or] at last
            exact ⟨l, a, [], rfl, last ▸ ha, by simp⟩
        | none =>
            rw [ha, Option.none_or] at last
            obtain ⟨before, b, after, rfl, hb, empty⟩ := ih.mp last
            refine ⟨before, b, after ++ [a], by simp, hb, ?_⟩
            intro c hc
            obtain hc | hc := List.mem_append.mp hc
            · exact empty c hc
            · rw [List.mem_singleton.mp hc]
              exact List.getLast?_eq_none_iff.mp ha
      · intro split
        obtain ⟨before, b, after, same, hb, empty⟩ := split
        obtain rfl | ⟨after, c, rfl⟩ := List.eq_nil_or_concat' after
        · obtain ⟨rfl, rfl⟩ := List.append_singleton_inj.mp same
          rw [hb, Option.some_or]
        · rw [← List.cons_append, ← List.append_assoc] at same
          obtain ⟨rfl, rfl⟩ := List.append_singleton_inj.mp same
          rw [empty a (by simp), List.getLast?_nil, Option.none_or]
          exact ih.mpr ⟨before, b, after, rfl, hb, fun d hd => empty d (by simp [hd])⟩

namespace Overlay
variable {S : Type u} {T : Type v}

inductive Op (S : Type u) where
  | set (setting : S)
  | close
  deriving DecidableEq

def Op.map (f : S → T) : Op S → Op T
  | .set s => .set (f s)
  | .close => .close

def push (stack : List S) : Op S → List S
  | .set s => s :: stack
  | .close => stack.tail

/-- The open settings, innermost first. -/
def stack (ops : List (Op S)) : List S := ops.foldl push []

/-- The settings since the last close, and those that close left open. -/
def track (t : List S × List S) : Op S → List S × List S
  | .set s => (s :: t.1, t.2)
  | .close => ([], (t.1 ++ t.2).tail)

def recent (ops : List (Op S)) : List S := (ops.foldl track ([], [])).1

def kept (ops : List (Op S)) : List S := (ops.foldl track ([], [])).2

/-- No setting that the last close left open is missing from those made since. -/
def Covered (ops : List (Op S)) : Prop := ∀ s ∈ kept ops, s ∈ recent ops

variable {ops : List (Op S)} {s : S}

@[simp] theorem stack_set : stack (ops ++ [.set s]) = s :: stack ops := by
  simp [stack, push]

@[simp] theorem stack_close : stack (ops ++ [.close]) = (stack ops).tail := by
  simp [stack, push]

@[simp] theorem recent_set : recent (ops ++ [.set s]) = s :: recent ops := by
  simp [recent, track]

@[simp] theorem recent_close : recent (ops ++ [.close]) = [] := by
  simp [recent, track]

@[simp] theorem kept_set : kept (ops ++ [.set s]) = kept ops := by
  simp [kept, track]

@[simp] theorem kept_close : kept (ops ++ [.close]) = (recent ops ++ kept ops).tail := by
  simp [kept, recent, track]

theorem stack_eq (ops : List (Op S)) : stack ops = recent ops ++ kept ops := by
  induction ops using List.reverseRecOn with
  | nil => rfl
  | append_singleton ops op ih =>
      cases op with
      | set s => simp [ih]
      | close => simp [ih]

theorem recent_eq_nil_iff (ops : List (Op S)) :
    recent ops = [] ↔ ∀ s, ops.getLast? ≠ some (.set s) := by
  induction ops using List.reverseRecOn with
  | nil => simp [recent]
  | append_singleton ops op _ =>
      cases op with
      | set s => simp
      | close => simp

theorem recent_map (f : S → T) (ops : List (Op S)) :
    recent (ops.map (Op.map f)) = (recent ops).map f ∧
      kept (ops.map (Op.map f)) = (kept ops).map f := by
  induction ops using List.reverseRecOn with
  | nil => exact ⟨rfl, rfl⟩
  | append_singleton ops op ih =>
      obtain ⟨hrecent, hkept⟩ := ih
      cases op with
      | set s => simp [Op.map, hrecent, hkept]
      | close => simp [Op.map, hrecent, hkept, List.map_tail]

section
variable [DecidableEq T] (key : S → T)

/-- What a stack shows for a key: its innermost setting. -/
def shown (stack : List S) (i : T) : Option S := stack.find? fun s => key s = i

def emit (state : T → Option S) : Op S → T → Option S
  | .set s => Function.update state (key s) (some s)
  | .close => fun _ => none

/-- The flat state, in which a close ends every setting. -/
def flat (ops : List (Op S)) : T → Option S := ops.foldl (emit key) fun _ => none

theorem shown_cons (s : S) (stack : List S) :
    shown key (s :: stack) = Function.update (shown key stack) (key s) (some s) := by
  funext i
  by_cases h : key s = i
  · simp [shown, h]
  · simp [shown, h, Function.update_of_ne (Ne.symm h)]

/-- The flat state shows the settings since the last close. -/
theorem flat_eq (ops : List (Op S)) : flat key ops = shown key (recent ops) := by
  induction ops using List.reverseRecOn with
  | nil => rfl
  | append_singleton ops op ih =>
      have step : flat key (ops ++ [op]) = emit key (flat key ops) op := by
        simp [flat]
      cases op with
      | set s => rw [step, ih, recent_set, shown_cons, emit]
      | close => rw [step, recent_close]; rfl

theorem shown_eq_none_iff (stack : List S) (i : T) :
    shown key stack i = none ↔ ∀ s ∈ stack, key s ≠ i := by
  simp [shown, List.find?_eq_none]

/-- Laying settings over others hides the others exactly when every key of theirs is set
again. -/
theorem shown_append_iff (upper lower : List S) :
    shown key upper = shown key (upper ++ lower) ↔
      ∀ i ∈ lower.map key, i ∈ upper.map key := by
  have split (i : T) :
      shown key (upper ++ lower) i = (shown key upper i).or (shown key lower i) :=
    List.find?_append
  constructor
  · intro same i member
    obtain ⟨s, hs, rfl⟩ := List.mem_map.mp member
    apply Decidable.byContradiction
    intro missing
    have hidden : shown key upper (key s) = none := by
      rw [shown_eq_none_iff]
      intro r hr hkey
      exact missing (List.mem_map.mpr ⟨r, hr, hkey⟩)
    have seen := congrFun same (key s)
    rw [split, hidden, Option.none_or, eq_comm, shown_eq_none_iff] at seen
    exact seen s hs rfl
  · intro covered
    funext i
    rw [split]
    cases hupper : shown key upper i with
    | some s => rfl
    | none =>
        rw [Option.none_or, eq_comm, shown_eq_none_iff]
        rw [shown_eq_none_iff] at hupper
        intro s hs hkey
        obtain ⟨r, hr, hsame⟩ := List.mem_map.mp (covered i (List.mem_map.mpr ⟨s, hs, hkey⟩))
        exact hupper r hr hsame

/-- The flat state shows what the stack shows exactly when the settings are covered. -/
theorem flat_eq_shown_iff (ops : List (Op S)) :
    flat key ops = shown key (stack ops) ↔ Covered (ops.map (Op.map key)) := by
  obtain ⟨hrecent, hkept⟩ := recent_map key ops
  rw [flat_eq, stack_eq, shown_append_iff, Covered, hrecent, hkept]

/-- The flat state is clean exactly when the last operation is no setting. -/
theorem flat_eq_clean_iff (ops : List (Op S)) :
    (flat key ops = fun _ => none) ↔ recent ops = [] := by
  rw [flat_eq]
  constructor
  · intro clean
    cases hrecent : recent ops with
    | nil => rfl
    | cons s rest =>
        have seen := congrFun clean (key s)
        rw [hrecent, shown_eq_none_iff] at seen
        exact absurd rfl (seen s (List.mem_cons_self))
  · intro none
    rw [none]
    rfl

end

end Overlay
end Logrin.Library
