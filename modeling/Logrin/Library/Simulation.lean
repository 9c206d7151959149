import Logrin.Library.Schedule
import Mathlib.Data.List.Basic

/-!
A machine that follows another one: each of its steps is a step of the other or changes nothing
there. Executions, reachable states and unending runs carry over.
-/

namespace Logrin.Library

universe u₁ u₂ v₁ v₂
variable {σ : Type u₁} {α : Type v₁} {τ : Type u₂} {β : Type v₂}

/-- What a step of the machine above is to the one below. -/
def Matches (N : Machine τ β) (t t' : τ) : Option β → Prop
  | some b => N.step t b = some t'
  | none => t' = t

structure Simulation (M : Machine σ α) (N : Machine τ β) where
  state : σ → τ
  label : σ → α → Option β
  start : state M.start = N.start
  step : ∀ s a s', M.step s a = some s' → Matches N (state s) (state s') (label s a)

namespace Simulation
variable {M : Machine σ α} {N : Machine τ β} (sim : Simulation M N)

/-- The steps of the machine below along a history. -/
def history (h : List (σ × α)) : List (τ × β) :=
  h.filterMap fun x => (sim.label x.1 x.2).map (Prod.mk (sim.state x.1))

theorem history_append (h : List (σ × α)) (s : σ) (a : α) :
    sim.history (h ++ [(s, a)]) =
      sim.history h ++ ((sim.label s a).map (Prod.mk (sim.state s))).toList := by
  cases ha : sim.label s a <;> simp [history, ha]

theorem execution {h : List (σ × α)} {s : σ} (run : M.Execution h s) :
    N.Execution (sim.history h) (sim.state s) := by
  induction run with
  | start =>
      rw [sim.start]
      exact .start
  | @next h s s' a prior hs ih =>
      have moves := sim.step s a s' hs
      rw [history_append]
      cases ha : sim.label s a with
      | none =>
          rw [ha] at moves
          have same : sim.state s' = sim.state s := moves
          simpa [same] using ih
      | some b =>
          rw [ha] at moves
          exact .next ih moves

theorem reachable {s : σ} (h : M.Reachable s) : N.Reachable (sim.state s) := by
  obtain ⟨history, run⟩ := h
  exact ⟨_, sim.execution run⟩

/-- An unending run, as the machine below sees it. -/
def schedule (S : Schedule M) : Schedule N where
  state n := sim.state (S.state n)
  label n := (S.label n).bind (sim.label (S.state n))
  reachable := sim.reachable S.reachable
  follows n := by
    obtain ⟨idle, same⟩ | ⟨a, ha, hs⟩ := S.follows n
    · exact Or.inl ⟨by simp [idle], by rw [same]⟩
    · have moves := sim.step _ a _ hs
      cases hb : sim.label (S.state n) a with
      | none =>
          rw [hb] at moves
          exact Or.inl ⟨by simp [ha, hb], moves⟩
      | some b =>
          rw [hb] at moves
          exact Or.inr ⟨b, by simp [ha, hb], moves⟩

end Simulation
end Logrin.Library
