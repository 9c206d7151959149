import Mathlib.Logic.Basic

/-!
Labelled state machines and their finite executions. The label resolves every
choice, so a step is a partial function. Three induction rules are packaged here:
an invariant holds in every reachable state, a relation to a value computed from
the labels holds after every run, and a property that each step keeps exactly
when the step meets a guard holds along an execution exactly when all its steps
meet the guard.
-/

namespace Logrin.Library

universe u v w

structure Machine (σ : Type u) (α : Type v) where
  start : σ
  step : σ → α → Option σ

namespace Machine
variable {σ : Type u} {α : Type v} (M : Machine σ α)

/-- `M.Execution h s`: the steps recorded in `h`, each with the state before it
and its label, lead from the start to `s`. -/
inductive Execution : List (σ × α) → σ → Prop
  | start : Execution [] M.start
  | next {h : List (σ × α)} {s s' : σ} {a : α} :
      Execution h s → M.step s a = some s' → Execution (h ++ [(s, a)]) s'

def Reachable (s : σ) : Prop := ∃ h, M.Execution h s

def run (s : σ) : List α → Option σ
  | [] => some s
  | a :: as => (M.step s a).bind fun s' => run s' as

variable {M}

/-- A relation to a value that each label updates, kept by every step, holds after a run with
the value that the labels lead to. -/
theorem run_foldl {β : Type w} {R : σ → β → Prop} {update : β → α → β}
    (keep : ∀ s a s' b, R s b → M.step s a = some s' → R s' (update b a)) {s s' : σ} {b : β}
    {as : List α} (base : R s b) (hr : M.run s as = some s') : R s' (as.foldl update b) := by
  induction as generalizing s b with
  | nil => simp only [run, Option.some.injEq] at hr; exact hr ▸ base
  | cons a as ih =>
      obtain ⟨t, ht, hrest⟩ := Option.bind_eq_some_iff.mp hr
      exact ih (keep s a t b base ht) hrest

theorem reachable_start : M.Reachable M.start := ⟨[], .start⟩

theorem Reachable.next {s s' : σ} {a : α} (h : M.Reachable s)
    (hs : M.step s a = some s') : M.Reachable s' := by
  obtain ⟨history, run⟩ := h
  exact ⟨_, .next run hs⟩

theorem Reachable.run {s s' : σ} {as : List α} (h : M.Reachable s)
    (hr : M.run s as = some s') : M.Reachable s' := by
  induction as generalizing s with
  | nil => simp only [Machine.run, Option.some.injEq] at hr; exact hr ▸ h
  | cons a as ih =>
      obtain ⟨t, ht, hrest⟩ := Option.bind_eq_some_iff.mp hr
      exact ih (h.next ht) hrest

theorem reachable_of_run {s : σ} (as : List α) (h : M.run M.start as = some s) :
    M.Reachable s :=
  reachable_start.run h

/-- Induction over reachable states; the step may use that its source is reachable. -/
theorem Reachable.invariant {I : σ → Prop} (base : I M.start)
    (keep : ∀ s a s', M.Reachable s → I s → M.step s a = some s' → I s') {s : σ}
    (h : M.Reachable s) : I s := by
  obtain ⟨history, run⟩ := h
  induction run with
  | start => exact base
  | next prior hs ih => exact keep _ _ _ ⟨_, prior⟩ ih hs

/-- What the steps from reachable states keep holds after a run if it did before. -/
theorem Reachable.run_kept {I : σ → Prop}
    (keep : ∀ s a s', M.Reachable s → I s → M.step s a = some s' → I s') {s s' : σ} {as : List α}
    (h : M.Reachable s) (base : I s) (hr : M.run s as = some s') : I s' := by
  induction as generalizing s with
  | nil => simp only [Machine.run, Option.some.injEq] at hr; exact hr ▸ base
  | cons a as ih =>
      obtain ⟨t, ht, hrest⟩ := Option.bind_eq_some_iff.mp hr
      exact ih (h.next ht) (keep s a t h base ht) hrest

/-- A property kept by exactly the steps that meet a guard holds in every state of
an execution if and only if every step of the execution meets the guard. -/
theorem Execution.always_iff_guarded {P : σ → Prop} {G : σ → α → Prop} (base : P M.start)
    (exact_step : ∀ s a s', P s → M.step s a = some s' → (P s' ↔ G s a))
    {h : List (σ × α)} {s : σ} (run : M.Execution h s) :
    ((∀ x ∈ h, P x.1) ∧ P s) ↔ ∀ x ∈ h, G x.1 x.2 := by
  induction run with
  | start => simpa using base
  | @next h s s' a prior hs ih =>
      simp only [List.forall_mem_append, List.forall_mem_singleton]
      constructor
      · intro always
        obtain ⟨⟨before, now⟩, after⟩ := always
        exact ⟨ih.mp ⟨before, now⟩, (exact_step s a s' now hs).mp after⟩
      · intro guards
        obtain ⟨guarded, last⟩ := guards
        obtain ⟨before, now⟩ := ih.mpr guarded
        exact ⟨⟨before, now⟩, (exact_step s a s' now hs).mpr last⟩

end Machine
end Logrin.Library
