import Logrin.Library.Machine

/-!
Unending runs of a machine in which any number of steps may pass with nothing done, and
what must happen in them once the threads that can move are not passed over for ever.
-/

namespace Logrin.Library

universe u v w
variable {σ : Type u} {α : Type v}

structure Schedule (M : Machine σ α) where
  state : Nat → σ
  label : Nat → Option α
  reachable : M.Reachable (state 0)
  follows : ∀ n,
    (label n = none ∧ state (n + 1) = state n) ∨
      ∃ a, label n = some a ∧ M.step (state n) a = some (state (n + 1))

namespace Schedule
variable {M : Machine σ α} (S : Schedule M)

/-- Weak fairness: steps of a kind that can always be taken from some time on are taken. -/
def FairTo (kind : α → Prop) : Prop :=
  ∀ n, (∀ m, n ≤ m → ∃ a, kind a ∧ (M.step (S.state m) a).isSome) →
    ∃ m a, n ≤ m ∧ S.label m = some a ∧ kind a

variable {S}

theorem reachable_state (n : Nat) : M.Reachable (S.state n) := by
  induction n with
  | zero => exact S.reachable
  | succ n ih =>
      obtain ⟨_, same⟩ | ⟨_, _, hs⟩ := S.follows n
      · exact same ▸ ih
      · exact ih.next hs

theorem step_of_label {n : Nat} {a : α} (h : S.label n = some a) :
    M.step (S.state n) a = some (S.state (n + 1)) := by
  obtain ⟨idle, _⟩ | ⟨b, hb, hs⟩ := S.follows n
  · simp [idle] at h
  · rw [h, Option.some.injEq] at hb
    exact hb ▸ hs

/-- A property that the steps from some time on keep holds from that time on. -/
theorem always_of_kept {P : σ → Prop} {n : Nat} (base : P (S.state n))
    (keep : ∀ m a, n ≤ m → S.label m = some a → P (S.state m) → P (S.state (m + 1)))
    (m : Nat) (le : n ≤ m) : P (S.state m) := by
  induction le with
  | refl => exact base
  | @step m le ih =>
      obtain ⟨_, same⟩ | ⟨a, ha, _⟩ := S.follows m
      · exact same ▸ ih
      · exact keep m a le ha ih

section Rank
variable {θ : Type w} {acts : θ → α → Prop} {ready : θ → σ → Prop}

/-- A thread that stays ready until it moves does move, and is ready when it does. -/
theorem moves_of_ready {n : Nat} {t : θ} (fair : S.FairTo (acts t))
    (enabled : ∀ m, n ≤ m → ready t (S.state m) →
      ∃ a, acts t a ∧ (M.step (S.state m) a).isSome)
    (kept : ∀ m a, n ≤ m → S.label m = some a → ¬ acts t a → ready t (S.state m) →
      ready t (S.state (m + 1)))
    (h : ready t (S.state n)) :
    ∃ m a, n ≤ m ∧ S.label m = some a ∧ acts t a ∧ ready t (S.state m) := by
  by_cases moved : ∃ m a, n ≤ m ∧ S.label m = some a ∧ acts t a ∧ ready t (S.state m)
  · exact moved
  · have always : ∀ m, n ≤ m → ready t (S.state m) := by
      apply always_of_kept h
      intro m a le ha hm
      exact kept m a le ha (fun act => moved ⟨m, a, le, ha, act, hm⟩) hm
    obtain ⟨m, a, le, ha, act⟩ := fair n fun m le => enabled m le (always m le)
    exact ⟨m, a, le, ha, act, always m le⟩

variable (acts ready) in
/-- The rule of helpful threads: outside the goal some fairly scheduled thread is ready, it
stays so until it moves, its move lowers a rank, and no step raises the rank. -/
theorem eventually_of_rank {goal : σ → Prop} (rank : σ → Nat) {n : Nat}
    (helpful : ∀ m, n ≤ m → ¬ goal (S.state m) →
      ∃ t, S.FairTo (acts t) ∧ ready t (S.state m))
    (enabled : ∀ t m, n ≤ m → ready t (S.state m) →
      ∃ a, acts t a ∧ (M.step (S.state m) a).isSome)
    (kept : ∀ t m a, n ≤ m → S.label m = some a → ¬ acts t a → ready t (S.state m) →
      ready t (S.state (m + 1)))
    (falls : ∀ t m a, n ≤ m → S.label m = some a → acts t a → ready t (S.state m) →
      rank (S.state (m + 1)) < rank (S.state m))
    (level : ∀ m a, n ≤ m → S.label m = some a → rank (S.state (m + 1)) ≤ rank (S.state m)) :
    ∃ m, n ≤ m ∧ goal (S.state m) := by
  generalize height : rank (S.state n) = k
  induction k using Nat.strongRecOn generalizing n with
  | ind k ih =>
      by_cases reached : goal (S.state n)
      · exact ⟨n, Nat.le_refl n, reached⟩
      · obtain ⟨t, fair, ready⟩ := helpful n (Nat.le_refl n) reached
        obtain ⟨m, a, le, ha, act, readyThen⟩ :=
          moves_of_ready fair (enabled t) (kept t) ready
        have drop : rank (S.state (m + 1)) < k := by
          have low : rank (S.state m) ≤ k := by
            apply always_of_kept (P := fun s => rank s ≤ k) (Nat.le_of_eq height) _ m le
            exact fun j b lej hb hj => Nat.le_trans (level j b lej hb) hj
          exact Nat.lt_of_lt_of_le (falls t m a le ha act readyThen) low
        have later : ∀ {j}, m + 1 ≤ j → n ≤ j := fun h => by omega
        obtain ⟨j, lej, hj⟩ := ih _ drop (n := m + 1)
          (fun j h => helpful j (later h)) (fun t j h => enabled t j (later h))
          (fun t j b h => kept t j b (later h)) (fun t j b h => falls t j b (later h))
          (fun j b h => level j b (later h)) rfl
        exact ⟨j, later lej, hj⟩

end Rank

/-- The states along a list of labels; the last one stands still. -/
def trail (M : Machine σ α) (s : σ) : List α → Nat → σ
  | [], _ => s
  | _ :: _, 0 => s
  | a :: as, n + 1 =>
      match M.step s a with
      | some s' => trail M s' as n
      | none => s

theorem trail_zero (s : σ) (as : List α) : trail M s as 0 = s := by
  cases as <;> rfl

theorem trail_follows {s last : σ} {as : List α} (hr : M.run s as = some last) (n : Nat) :
    (as[n]? = none ∧ trail M s as (n + 1) = trail M s as n) ∨
      ∃ a, as[n]? = some a ∧ M.step (trail M s as n) a = some (trail M s as (n + 1)) := by
  induction as generalizing s n with
  | nil => exact Or.inl ⟨rfl, rfl⟩
  | cons a as ih =>
      obtain ⟨t, ht, hrest⟩ := Option.bind_eq_some_iff.mp hr
      cases n with
      | zero => exact Or.inr ⟨a, rfl, by simp [trail, ht, trail_zero]⟩
      | succ n => simpa [trail, ht] using ih hrest n

theorem trail_last {s last : σ} {as : List α} (hr : M.run s as = some last) {n : Nat}
    (le : as.length ≤ n) : trail M s as n = last := by
  induction as generalizing s n with
  | nil =>
      simp only [Machine.run, Option.some.injEq] at hr
      exact hr
  | cons a as ih =>
      obtain ⟨t, ht, hrest⟩ := Option.bind_eq_some_iff.mp hr
      cases n with
      | zero => simp at le
      | succ n =>
          simp only [trail, ht]
          exact ih hrest (Nat.le_of_succ_le_succ le)

/-- A finite run, then nothing. -/
def ofRun {last : σ} (as : List α) (hr : M.run M.start as = some last) : Schedule M where
  state := trail M M.start as
  label n := as[n]?
  reachable := by
    rw [trail_zero]
    exact Machine.reachable_start
  follows := trail_follows hr

/-- A finite run is fair to the steps of a kind that its last state does not allow. -/
theorem fairTo_ofRun {last : σ} {as : List α} (hr : M.run M.start as = some last)
    {kind : α → Prop} (stuck : ∀ a, kind a → M.step last a = none) :
    (ofRun as hr).FairTo kind := by
  intro n always
  obtain ⟨a, ha, enabled⟩ := always (max n as.length) (Nat.le_max_left _ _)
  have at_last : (ofRun as hr).state (max n as.length) = last :=
    trail_last hr (Nat.le_max_right _ _)
  simp [at_last, stuck a ha] at enabled

/-- What such a schedule does from some time on is in the rest of the run. -/
theorem mem_of_ofRun_label {last : σ} {as : List α} {hr : M.run M.start as = some last} {n m : Nat}
    {a : α} (le : n ≤ m) (h : (ofRun as hr).label m = some a) : a ∈ as.drop n := by
  have rest : (as.drop n)[m - n]? = some a := by
    rw [List.getElem?_drop, Nat.add_sub_cancel' le]
    exact h
  exact List.mem_of_getElem? rest

end Schedule
end Logrin.Library
