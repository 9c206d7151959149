import Logrin.Library.Bytes

/-!
Computations that can fail: a `while` loop run on fuel, a traversal that appends what its
body returns, and the lemmas that take them apart.
-/

namespace Logrin.Library

universe u v w
variable {σ : Type u} {ε : Type v}

def whileLoop (cond : σ → Bool) (body : σ → Except ε σ) : Nat → σ → Except ε σ
  | 0, s => .ok s
  | fuel + 1, s => if cond s then body s >>= whileLoop cond body fuel else .ok s

/-- Run `f` over a list, appending the results. -/
def concatM {α β : Type u} (f : α → Except ε (List β)) : List α → Except ε (List β)
  | [] => .ok []
  | a :: as => do
      let out ← f a
      let rest ← concatM f as
      .ok (out ++ rest)

@[simp] theorem ok_bind {α β : Type u} (a : α) (f : α → Except ε β) :
    ((Except.ok a : Except ε α) >>= f) = f a := rfl

@[simp] theorem toOption_ok {α : Type u} (a : α) :
    (Except.ok a : Except ε α).toOption = some a := rfl

@[simp] theorem toOption_error {α : Type u} (e : ε) :
    (Except.error e : Except ε α).toOption = none := rfl

@[simp] theorem toOption_bind {α β : Type u} (x : Except ε α) (f : α → Except ε β) :
    (x >>= f).toOption = x.toOption.bind fun a => (f a).toOption := by
  cases x <;> rfl

theorem toOption_eq_some {α : Type u} {x : Except ε α} {a : α} :
    x.toOption = some a ↔ x = .ok a := by
  cases x <;> simp

theorem ok_of_any {α : Type u} {x : Except ε α} {P : α → Bool} (h : x.toOption.any P = true) :
    ∃ a, x = .ok a ∧ P a = true := by
  cases x with
  | error e => cases h
  | ok a => exact ⟨a, rfl, h⟩

theorem bind_eq_ok {α β : Type u} {x : Except ε α} {f : α → Except ε β} {b : β} :
    x >>= f = .ok b ↔ ∃ a, x = .ok a ∧ f a = .ok b := by
  cases x with
  | error e =>
      constructor
      · intro h
        cases h
      · intro h
        obtain ⟨_, h, _⟩ := h
        cases h
  | ok a => exact ⟨fun h => ⟨a, rfl, h⟩, fun ⟨_, h, hf⟩ => by cases h; exact hf⟩

/-- Two computations that fail with one error, or succeed with related results. -/
def Agree {α : Type u} {β : Type w} (R : α → β → Prop) : Except ε α → Except ε β → Prop
  | .ok a, .ok b => R a b
  | .error e, .error e' => e = e'
  | _, _ => False

theorem agree_refl {α : Type u} {R : α → α → Prop} (refl : ∀ a, R a a) (x : Except ε α) :
    Agree R x x := by
  cases x with
  | error e => rfl
  | ok a => exact refl a

theorem Agree.imp {α : Type u} {β : Type w} {R S : α → β → Prop} {x : Except ε α}
    {y : Except ε β} (h : Agree R x y) (weaker : ∀ a b, R a b → S a b) : Agree S x y := by
  cases x with
  | error e =>
      cases y with
      | error e' => exact h
      | ok b => cases h
  | ok a =>
      cases y with
      | error e' => cases h
      | ok b => exact weaker a b h

theorem Agree.bind {α γ : Type u} {β δ : Type w} {R : α → β → Prop} {S : γ → δ → Prop}
    {x : Except ε α} {y : Except ε β} {f : α → Except ε γ} {g : β → Except ε δ} (h : Agree R x y)
    (next : ∀ a b, R a b → Agree S (f a) (g b)) : Agree S (x >>= f) (y >>= g) := by
  cases x with
  | error e =>
      cases y with
      | error e' => exact h
      | ok b => cases h
  | ok a =>
      cases y with
      | error e' => cases h
      | ok b => exact next a b h

theorem Agree.map_eq {α : Type u} {R : α → PUnit → Prop} {x : Except ε α} {y : Except ε PUnit}
    (h : Agree R x y) : x.map (fun _ => ⟨⟩) = y := by
  cases x with
  | error e =>
      cases y with
      | error e' => exact congrArg Except.error h
      | ok b => cases h
  | ok a =>
      cases y with
      | error e' => cases h
      | ok b => rfl

/-- A fold whose steps succeed for the same elements in every state succeeds when they do. -/
theorem foldlM_ok_iff {α : Type w} {f : σ → α → Except ε σ} {P : α → Prop}
    {as : List α} (h : ∀ a ∈ as, ∀ s, (∃ s', f s a = .ok s') ↔ P a) (s : σ) :
    (∃ s', as.foldlM f s = .ok s') ↔ ∀ a ∈ as, P a := by
  induction as generalizing s with
  | nil => exact ⟨fun _ => by simp, fun _ => ⟨s, rfl⟩⟩
  | cons a as ih =>
      obtain ⟨first, others⟩ := List.forall_mem_cons.mp h
      rw [List.forall_mem_cons, ← first s, List.foldlM_cons]
      constructor
      · intro succeeds
        obtain ⟨s', done⟩ := succeeds
        obtain ⟨s₁, hs₁, done⟩ := bind_eq_ok.mp done
        exact ⟨⟨s₁, hs₁⟩, (ih others s₁).mp ⟨s', done⟩⟩
      · intro succeeds
        obtain ⟨⟨s₁, hs₁⟩, rest⟩ := succeeds
        obtain ⟨s', done⟩ := (ih others s₁).mpr rest
        exact ⟨s', bind_eq_ok.mpr ⟨s₁, hs₁, done⟩⟩

theorem concatM_ok {α β : Type u} {f : α → Except ε (List β)} {as : List α}
    (h : ∀ a ∈ as, ∃ out, f a = .ok out) : ∃ out, concatM f as = .ok out := by
  induction as with
  | nil => exact ⟨[], rfl⟩
  | cons a as ih =>
      obtain ⟨⟨first, hfirst⟩, others⟩ := List.forall_mem_cons.mp h
      obtain ⟨rest, hrest⟩ := ih others
      exact ⟨first ++ rest, by simp only [concatM, hfirst, hrest]; rfl⟩

theorem concatM_each {α β : Type u} {f : α → Except ε (List β)} {as : List α} {out : List β}
    (h : concatM f as = .ok out) : ∀ a ∈ as, ∃ x, f a = .ok x := by
  induction as generalizing out with
  | nil => simp
  | cons a as ih =>
      obtain ⟨x, hx, h⟩ := bind_eq_ok.mp h
      obtain ⟨_, hxs, _⟩ := bind_eq_ok.mp h
      exact List.forall_mem_cons.mpr ⟨⟨x, hx⟩, ih hxs⟩

theorem concatM_cons_ok {α β : Type u} {f : α → Except ε (List β)} {a : α} {as : List α}
    {out : List β} :
    concatM f (a :: as) = .ok out ↔
      ∃ x y, f a = .ok x ∧ concatM f as = .ok y ∧ out = x ++ y := by
  simp only [concatM, bind_eq_ok, Except.ok.injEq]
  constructor
  · intro h
    obtain ⟨x, hx, y, hy, same⟩ := h
    exact ⟨x, y, hx, hy, same.symm⟩
  · intro h
    obtain ⟨x, y, hx, hy, same⟩ := h
    exact ⟨x, hx, y, hy, same.symm⟩

theorem concatM_append_ok {α β : Type u} {f : α → Except ε (List β)} {as bs : List α}
    {out : List β} :
    concatM f (as ++ bs) = .ok out ↔
      ∃ x y, concatM f as = .ok x ∧ concatM f bs = .ok y ∧ out = x ++ y := by
  induction as generalizing out with
  | nil =>
      constructor
      · exact fun h => ⟨[], out, rfl, h, rfl⟩
      · intro h
        obtain ⟨x, y, hx, hy, rfl⟩ := h
        cases hx
        exact hy
  | cons a as ih =>
      simp only [List.cons_append, concatM_cons_ok, ih]
      constructor
      · intro h
        obtain ⟨w, _, hw, ⟨x, y, hx, hy, rfl⟩, rfl⟩ := h
        exact ⟨w ++ x, y, ⟨w, x, hw, hx, rfl⟩, hy, (List.append_assoc w x y).symm⟩
      · intro h
        obtain ⟨_, y, ⟨w, x, hw, hx, rfl⟩, hy, rfl⟩ := h
        exact ⟨w, x ++ y, hw, ⟨x, y, hx, hy, rfl⟩, List.append_assoc w x y⟩

theorem concatM_singleton {α β : Type u} {f : α → Except ε (List β)} {a : α} {out : List β} :
    concatM f [a] = .ok out ↔ f a = .ok out := by
  rw [concatM_cons_ok]
  constructor
  · intro h
    obtain ⟨x, y, hx, hy, rfl⟩ := h
    cases hy
    rw [hx, List.append_nil]
  · exact fun h => ⟨out, [], h, rfl, (List.append_nil out).symm⟩

theorem concatM_comp {α β γ : Type u} (f : β → Except ε (List γ)) (g : α → β) (as : List α) :
    concatM f (as.map g) = concatM (fun a => f (g a)) as := by
  induction as with
  | nil => rfl
  | cons a as ih => simp only [List.map_cons, concatM, ih]

/-- A traversal fails with the error of one of the elements. -/
theorem concatM_error {α β : Type u} {f : α → Except ε (List β)} {as : List α} {e : ε}
    (h : concatM f as = .error e) : ∃ a ∈ as, f a = .error e := by
  induction as with
  | nil => cases h
  | cons a as ih =>
      cases first : f a with
      | error e' =>
          rw [concatM, first] at h
          cases h
          exact ⟨a, List.mem_cons_self, first⟩
      | ok x =>
          cases rest : concatM f as with
          | error e' =>
              rw [concatM, first, rest] at h
              cases h
              obtain ⟨b, member, hb⟩ := ih rest
              exact ⟨b, List.mem_cons_of_mem a member, hb⟩
          | ok xs =>
              rw [concatM, first, rest] at h
              cases h

theorem concatM_congr {α β : Type u} {f g : α → Except ε (List β)} {as : List α}
    (same : ∀ a ∈ as, f a = g a) : concatM f as = concatM g as := by
  induction as with
  | nil => rfl
  | cons a as ih =>
      obtain ⟨first, others⟩ := List.forall_mem_cons.mp same
      simp only [concatM, first, ih others]

/-- Mapping each result to a list commutes with appending the results. -/
theorem concatM_map {α β γ : Type u} {f : α → Except ε (List γ)} {g : α → Except ε (List β)}
    (h : β → List γ) {as : List α} (same : ∀ a ∈ as, f a = (g a).map (List.flatMap h)) :
    concatM f as = (concatM g as).map (List.flatMap h) := by
  induction as with
  | nil => rfl
  | cons a as ih =>
      obtain ⟨first, others⟩ := List.forall_mem_cons.mp same
      simp only [concatM, first, ih others]
      cases g a with
      | error e => rfl
      | ok x =>
          cases concatM g as with
          | error e => rfl
          | ok xs => simp [Except.map]

/-- A traversal of the elements kept gives the part kept of each result, when the elements
left out give nothing that is kept. -/
theorem concatM_filter {α β : Type u} {f g : α → Except ε (List β)} {keep : α → Bool}
    {part : β → Bool} {as : List α} {out : List β} (h : concatM f as = .ok out)
    (kept : ∀ a ∈ as, keep a = true → ∀ x, f a = .ok x → g a = .ok (x.filter part))
    (dropped : ∀ a ∈ as, keep a = false → ∀ x, f a = .ok x → x.filter part = []) :
    concatM g (as.filter keep) = .ok (out.filter part) := by
  induction as generalizing out with
  | nil =>
      cases h
      rfl
  | cons a as ih =>
      obtain ⟨x, hx, h⟩ := bind_eq_ok.mp h
      obtain ⟨xs, hxs, h⟩ := bind_eq_ok.mp h
      cases h
      obtain ⟨kept_first, kept_others⟩ := List.forall_mem_cons.mp kept
      obtain ⟨dropped_first, dropped_others⟩ := List.forall_mem_cons.mp dropped
      have rest := ih hxs kept_others dropped_others
      cases hkeep : keep a with
      | false =>
          rw [List.filter_cons_of_neg (by simp [hkeep]), List.filter_append,
            dropped_first hkeep x hx, rest, List.nil_append]
      | true =>
          rw [List.filter_cons_of_pos hkeep, concatM, kept_first hkeep x hx, rest,
            List.filter_append]
          rfl

/-- What is known of each result, element by element, is known of the whole. -/
theorem concatM_summary {α β γ : Type u} {f : α → Except ε (List β)} (view : β → γ)
    {summary : α → List γ} {as : List α} {out : List β} (h : concatM f as = .ok out)
    (each : ∀ a ∈ as, ∀ x, f a = .ok x → x.map view = summary a) :
    out.map view = as.flatMap summary := by
  induction as generalizing out with
  | nil =>
      cases h
      rfl
  | cons a as ih =>
      obtain ⟨x, hx, h⟩ := bind_eq_ok.mp h
      obtain ⟨xs, hxs, h⟩ := bind_eq_ok.mp h
      cases h
      obtain ⟨first, others⟩ := List.forall_mem_cons.mp each
      rw [List.map_append, first x hx, ih hxs others, List.flatMap_cons]

/-- Where no element gives more than before, and one gives less, the whole is shorter. -/
theorem concatM_shorter {α β : Type u} {f g : α → Except ε (List β)} {as : List α}
    {out out' : List β} (hf : concatM f as = .ok out) (hg : concatM g as = .ok out')
    (le : ∀ a ∈ as, ∀ x y, f a = .ok x → g a = .ok y → y.length ≤ x.length) :
    out'.length ≤ out.length ∧
      ((∃ a ∈ as, ∀ x y, f a = .ok x → g a = .ok y → y.length < x.length) →
        out'.length < out.length) := by
  induction as generalizing out out' with
  | nil =>
      cases hf
      cases hg
      simp
  | cons a as ih =>
      obtain ⟨x, hx, hf⟩ := bind_eq_ok.mp hf
      obtain ⟨xs, hxs, hf⟩ := bind_eq_ok.mp hf
      obtain ⟨y, hy, hg⟩ := bind_eq_ok.mp hg
      obtain ⟨ys, hys, hg⟩ := bind_eq_ok.mp hg
      cases hf
      cases hg
      obtain ⟨first, others⟩ := List.forall_mem_cons.mp le
      obtain ⟨rest_le, rest_lt⟩ := ih hxs hys others
      have head_le := first x y hx hy
      simp only [List.length_append]
      refine ⟨by omega, ?_⟩
      intro strict
      obtain ⟨b, member, less⟩ := strict
      cases member with
      | head =>
          have head_lt := less x y hx hy
          omega
      | tail _ member =>
          have tail_lt := rest_lt ⟨b, member, less⟩
          omega

end Logrin.Library
