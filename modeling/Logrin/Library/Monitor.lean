import Logrin.Library.Machine
import Mathlib.Logic.Function.Basic

/-!
Threads that call operations on objects, each object with a lock of its own. An operation runs in
pieces under the lock; between two pieces the other threads run.

Seen through a view that only one object's operations change, the shared state is what those
operations leave behind when they are run one after the other, in the order in which they took
the lock.
-/

namespace Logrin.Library

universe u v w x y z
variable {ι : Type u} {κ : Type v} {Op : Type w} {Point : Type x} {σ : Type y} {τ : Type z}

/-- How a call goes on: it returns at once, it ends the process, or it takes the lock. -/
inductive Entry (Point : Type x) where
  | returns
  | ends
  | locks (point : Point)

/-- An object whose operations run in pieces; after the last one the lock is released. How a call
goes on can depend on the thread that makes it. -/
structure Monitor (ι : Type u) (Op : Type w) (Point : Type x) (σ : Type y) where
  enter : ι → Op → Entry Point
  piece : Point → σ → σ × Option Point

namespace Monitor
variable (m : Monitor ι Op Point σ)

/-- The pieces from a point to the release, with nothing in between. -/
inductive Runs : Point → σ → σ → Prop
  | last {p : Point} {s s' : σ} : m.piece p s = (s', none) → Runs p s s'
  | more {p q : Point} {s s' s'' : σ} :
      m.piece p s = (s', some q) → Runs q s' s'' → Runs p s s''

/-- Some pieces, with nothing in between, and the point they lead to. -/
inductive Within (p : Point) (s : σ) : Point → σ → Prop
  | here : Within p s p s
  | next {q r : Point} {s' s'' : σ} :
      Within p s q s' → m.piece q s' = (s'', some r) → Within p s r s''

inductive Calls (s : σ) : List (ι × Op) → σ → Prop
  | nil : Calls s [] s
  | snoc {ops : List (ι × Op)} {i : ι} {op : Op} {p : Point} {s' s'' : σ} :
      Calls s ops s' → m.enter i op = .locks p → Runs m p s' s'' →
      Calls s (ops ++ [(i, op)]) s''

variable {m}

theorem Within.runs {p q : Point} {s s' s'' : σ} (h : m.Within p s q s') (rest : m.Runs q s' s'') :
    m.Runs p s s'' := by
  induction h with
  | here => exact rest
  | next _ hp ih => exact ih (.more hp rest)

theorem Runs.unique {p : Point} {s s' s'' : σ} (h : m.Runs p s s') (h' : m.Runs p s s'') :
    s' = s'' := by
  induction h with
  | last hp =>
      cases h' with
      | last hp' => exact (Prod.mk.inj (hp.symm.trans hp')).1
      | more hp' => cases hp.symm.trans hp'
  | more hp _ ih =>
      cases h' with
      | last hp' => cases hp.symm.trans hp'
      | more hp' rest =>
          cases hp.symm.trans hp'
          exact ih rest

/-- What is left to run after some pieces leads where the whole leads. -/
theorem Within.rest {p q : Point} {s s' s'' : σ} (h : m.Within p s q s') (whole : m.Runs p s s'') :
    m.Runs q s' s'' := by
  induction h with
  | here => exact whole
  | next _ hp ih =>
      cases ih with
      | last hp' => cases hp.symm.trans hp'
      | more hp' rest =>
          cases hp.symm.trans hp'
          exact rest

theorem Calls.foldl {effect : σ → ι × Op → σ} {s s' : σ} {ops : List (ι × Op)}
    (whole : ∀ x p s, m.enter x.1 x.2 = .locks p → m.Runs p s (effect s x))
    (h : m.Calls s ops s') : s' = ops.foldl effect s := by
  induction h with
  | nil => rfl
  | snoc _ enters runs ih =>
      subst ih
      rw [List.foldl_append]
      exact runs.unique (whole (_, _) _ _ enters)

end Monitor

namespace Threads

structure Thread (κ : Type v) (Op : Type w) where
  /-- the object whose lock the thread holds -/
  inside : Option κ
  todo : List (κ × Op)

structure State (ι : Type u) (κ : Type v) (Op : Type w) (Point : Type x) (σ : Type y) where
  shared : σ
  lock : κ → Option (ι × Point)
  threads : ι → Thread κ Op
  /-- the operations that took an object's lock, in that order -/
  order : κ → List (ι × Op)

/-- A thread that has nothing to do is given calls, begins its next call, or runs the next piece of
the operation it is in. -/
inductive Action (ι : Type u) (κ : Type v) (Op : Type w) where
  | submit (i : ι) (calls : List (κ × Op))
  | call (i : ι)
  | piece (i : ι)

section
variable [DecidableEq ι]

def State.setThread (s : State ι κ Op Point σ) (i : ι) (thread : Thread κ Op) :
    State ι κ Op Point σ :=
  { s with threads := Function.update s.threads i thread }

@[simp] theorem State.setThread_order (s : State ι κ Op Point σ) (i : ι) (thread : Thread κ Op) :
    (s.setThread i thread).order = s.order := rfl

@[simp] theorem State.setThread_threads (s : State ι κ Op Point σ) (i : ι)
    (thread : Thread κ Op) :
    (s.setThread i thread).threads = Function.update s.threads i thread := rfl

variable [DecidableEq κ] (m : κ → Monitor ι Op Point σ)

def step (s : State ι κ Op Point σ) : Action ι κ Op → Option (State ι κ Op Point σ)
  | .submit i calls =>
      match s.threads i with
      | ⟨none, []⟩ => some (s.setThread i ⟨none, calls⟩)
      | _ => none
  | .call i =>
      match s.threads i with
      | ⟨none, (k, op) :: rest⟩ =>
          match (m k).enter i op, s.lock k with
          | .returns, _ => some (s.setThread i ⟨none, rest⟩)
          | .locks p, none =>
              some { s.setThread i ⟨some k, rest⟩ with
                lock := Function.update s.lock k (some (i, p))
                order := Function.update s.order k (s.order k ++ [(i, op)]) }
          | _, _ => none
      | _ => none
  | .piece i =>
      match s.threads i with
      | ⟨some k, todo⟩ =>
          match s.lock k with
          | some (j, p) =>
              if j = i then
                match (m k).piece p s.shared with
                | (shared, some q) =>
                    some { s with
                      shared := shared, lock := Function.update s.lock k (some (i, q)) }
                | (shared, none) =>
                    some { s.setThread i ⟨none, todo⟩ with
                      shared := shared, lock := Function.update s.lock k none }
              else none
          | none => none
      | _ => none

def init (shared : σ) : State ι κ Op Point σ where
  shared := shared
  lock := fun _ => none
  threads := fun _ => ⟨none, []⟩
  order := fun _ => []

def machine (shared : σ) : Machine (State ι κ Op Point σ) (Action ι κ Op) where
  start := init shared
  step := step m

inductive Steps (s : State ι κ Op Point σ) : Action ι κ Op → State ι κ Op Point σ → Prop
  | submit (i : ι) (calls : List (κ × Op)) : s.threads i = ⟨none, []⟩ →
      Steps s (.submit i calls) (s.setThread i ⟨none, calls⟩)
  | returns (i : ι) (k : κ) (op : Op) (rest : List (κ × Op)) :
      s.threads i = ⟨none, (k, op) :: rest⟩ → (m k).enter i op = .returns →
      Steps s (.call i) (s.setThread i ⟨none, rest⟩)
  | locks (i : ι) (k : κ) (op : Op) (rest : List (κ × Op)) (p : Point) :
      s.threads i = ⟨none, (k, op) :: rest⟩ → (m k).enter i op = .locks p → s.lock k = none →
      Steps s (.call i)
        { s.setThread i ⟨some k, rest⟩ with
          lock := Function.update s.lock k (some (i, p))
          order := Function.update s.order k (s.order k ++ [(i, op)]) }
  | goesOn (i : ι) (k : κ) (todo : List (κ × Op)) (p q : Point) (shared : σ) :
      s.threads i = ⟨some k, todo⟩ → s.lock k = some (i, p) →
      (m k).piece p s.shared = (shared, some q) →
      Steps s (.piece i)
        { s with shared := shared, lock := Function.update s.lock k (some (i, q)) }
  | releases (i : ι) (k : κ) (todo : List (κ × Op)) (p : Point) (shared : σ) :
      s.threads i = ⟨some k, todo⟩ → s.lock k = some (i, p) →
      (m k).piece p s.shared = (shared, none) →
      Steps s (.piece i)
        { s.setThread i ⟨none, todo⟩ with
          shared := shared, lock := Function.update s.lock k none }

variable {m}

theorem steps_of_step {s s' : State ι κ Op Point σ} {a : Action ι κ Op}
    (hs : step m s a = some s') : Steps m s a s' := by
  cases a with
  | submit i calls =>
      simp only [step] at hs
      split at hs
      · cases hs
        exact .submit i calls ‹_›
      · contradiction
  | call i =>
      simp only [step] at hs
      split at hs
      · split at hs
        · cases hs
          exact .returns i _ _ _ ‹_› ‹_›
        · cases hs
          exact .locks i _ _ _ _ ‹_› ‹_› ‹_›
        · contradiction
      · contradiction
  | piece i =>
      simp only [step] at hs
      split at hs
      · split at hs
        · split at hs
          · next same =>
              subst same
              split at hs
              · cases hs
                exact .goesOn _ _ _ _ _ _ ‹_› ‹_› ‹_›
              · cases hs
                exact .releases _ _ _ _ _ ‹_› ‹_› ‹_›
          · contradiction
        · contradiction
      · contradiction

end

/-- The view shows what the operations of object `k` do, as the object `own` does it, and nothing
that another object's operations do. It may rely on `Good` states and on the points at which the
objects' operations can stand. -/
structure Isolated (m : κ → Monitor ι Op Point σ) (k : κ) (view : σ → τ)
    (own : Monitor ι Op Point τ) (Good : σ → Prop) (At : κ → Point → Prop) : Prop where
  enter : ∀ i op, own.enter i op = (m k).enter i op
  entry : ∀ j i op p, (m j).enter i op = .locks p → At j p
  kept : ∀ j p s, Good s → At j p →
    Good ((m j).piece p s).1 ∧ ∀ q, ((m j).piece p s).2 = some q → At j q
  shown : ∀ p s, Good s → At k p →
    own.piece p (view s) = (view ((m k).piece p s).1, ((m k).piece p s).2)
  apart : ∀ j p s, j ≠ k → Good s → At j p → view ((m j).piece p s).1 = view s

/-- The shared state is good, and every operation stands where it can. -/
structure Placed (Good : σ → Prop) (At : κ → Point → Prop) (s : State ι κ Op Point σ) : Prop where
  good : Good s.shared
  points : ∀ j i p, s.lock j = some (i, p) → At j p

/-- What the view shows while the lock of object `k` is free, and while it is held. -/
def Linear (own : Monitor ι Op Point τ) (view : σ → τ) (k : κ) (first : τ)
    (s : State ι κ Op Point σ) : Prop :=
  match s.lock k with
  | none => own.Calls first (s.order k) (view s.shared)
  | some (i, p) =>
      ∃ before op q t, s.order k = before ++ [(i, op)] ∧
        own.Calls first before t ∧ own.enter i op = .locks q ∧
        own.Within q t p (view s.shared)

section
variable {k : κ} {view : σ → τ} {own : Monitor ι Op Point τ} {Good : σ → Prop}
  {At : κ → Point → Prop} {s s' : State ι κ Op Point σ} {first : τ}

/-- What a view shows depends on the view, the lock and the order of one object. -/
theorem Linear.congr (inv : Linear own view k first s) (shown : view s'.shared = view s.shared)
    (lock : s'.lock k = s.lock k) (order : s'.order k = s.order k) :
    Linear own view k first s' := by
  simp only [Linear, lock, order, shown]
  exact inv

/-- With the effect of each whole operation known, the view shows their effects one after the other
while the lock is free, and is on the way to that while it is held. -/
theorem Linear.foldl {effect : τ → ι × Op → τ} (inv : Linear own view k first s)
    (whole : ∀ x p t, own.enter x.1 x.2 = .locks p → own.Runs p t (effect t x)) :
    (s.lock k = none → view s.shared = (s.order k).foldl effect first) ∧
      ∀ i p, s.lock k = some (i, p) →
        own.Runs p (view s.shared) ((s.order k).foldl effect first) := by
  constructor
  · intro free
    simp only [Linear, free] at inv
    exact inv.foldl whole
  · intro i p held
    simp only [Linear, held] at inv
    obtain ⟨before, op, q, t, order, calls, enters, within⟩ := inv
    have last : (s.order k).foldl effect first = effect t (i, op) := by
      rw [order, List.foldl_append, ← calls.foldl whole]
      rfl
    rw [last]
    exact within.rest (whole (i, op) q t enters)

end

section
variable [DecidableEq ι] [DecidableEq κ] {m : κ → Monitor ι Op Point σ} {k : κ} {view : σ → τ}
  {own : Monitor ι Op Point τ} {Good : σ → Prop} {At : κ → Point → Prop}
  {s s' : State ι κ Op Point σ} {a : Action ι κ Op} {first : τ}

theorem placed_step (iso : Isolated m k view own Good At) (placed : Placed Good At s)
    (hs : step m s a = some s') : Placed Good At s' := by
  have update {j j' : κ} {i' : ι} {p : Point} {x : Option (ι × Point)}
      (h : Function.update s.lock j x j' = some (i', p)) (hx : ∀ i q, x = some (i, q) → At j q) :
      At j' p := by
    by_cases same : j' = j
    · subst same
      rw [Function.update_self] at h
      exact hx _ _ h
    · rw [Function.update_of_ne same] at h
      exact placed.points j' i' p h
  cases steps_of_step hs with
  | submit | returns => exact ⟨placed.good, placed.points⟩
  | locks i j op rest p _ enters free =>
      refine ⟨placed.good, fun j' i' q h => update h ?_⟩
      intro i q hq
      cases hq
      exact iso.entry j i op p enters
  | goesOn i j todo p q shared _ held runs =>
      obtain ⟨good, points⟩ := iso.kept j p s.shared placed.good (placed.points j i p held)
      rw [runs] at good points
      refine ⟨good, fun j' i' r h => update h ?_⟩
      intro i r hr
      cases hr
      exact points q rfl
  | releases i j todo p shared _ held runs =>
      obtain ⟨good, _⟩ := iso.kept j p s.shared placed.good (placed.points j i p held)
      rw [runs] at good
      exact ⟨good, fun j' i' r h => update h (fun _ _ none => by cases none)⟩

theorem linear_step (iso : Isolated m k view own Good At) (placed : Placed Good At s)
    (inv : Linear own view k first s) (hs : step m s a = some s') :
    Linear own view k first s' := by
  cases steps_of_step hs with
  | submit | returns => exact inv.congr rfl rfl rfl
  | locks i j op rest p _ enters free =>
      by_cases same : j = k
      · subst same
        simp only [Linear, free] at inv
        simp only [Linear, Function.update_self]
        exact ⟨s.order j, op, p, view s.shared, rfl, inv, (iso.enter i op).trans enters, .here⟩
      · exact inv.congr rfl (Function.update_of_ne (Ne.symm same) _ _)
          (Function.update_of_ne (Ne.symm same) _ _)
  | goesOn i j todo p q shared _ held runs =>
      have point := placed.points j i p held
      by_cases same : j = k
      · subst same
        have shown := iso.shown p s.shared placed.good point
        rw [runs] at shown
        simp only [Linear, held] at inv
        simp only [Linear, Function.update_self]
        obtain ⟨before, op, r, t, order, calls, enters, within⟩ := inv
        exact ⟨before, op, r, t, order, calls, enters, .next within shown⟩
      · have apart := iso.apart j p s.shared same placed.good point
        rw [runs] at apart
        exact inv.congr apart (Function.update_of_ne (Ne.symm same) _ _) rfl
  | releases i j todo p shared _ held runs =>
      have point := placed.points j i p held
      by_cases same : j = k
      · subst same
        have shown := iso.shown p s.shared placed.good point
        rw [runs] at shown
        simp only [Linear, held] at inv
        simp only [Linear, Function.update_self]
        obtain ⟨before, op, r, t, order, calls, enters, within⟩ := inv
        rw [State.setThread_order, order]
        exact .snoc calls enters (within.runs (.last shown))
      · have apart := iso.apart j p s.shared same placed.good point
        rw [runs] at apart
        exact inv.congr apart (Function.update_of_ne (Ne.symm same) _ _) rfl

/-- In every reachable state the view of an isolated object shows its operations run whole, one
after the other in the order in which they took the lock; the last one as far as it has come. -/
theorem linear_of_reachable {shared : σ} (iso : Isolated m k view own Good At) (good : Good shared)
    (h : (machine (ι := ι) m shared).Reachable s) : Linear own view k (view shared) s := by
  have both : Placed Good At s ∧ Linear own view k (view shared) s := by
    apply h.invariant (I := fun s => Placed Good At s ∧ Linear own view k (view shared) s)
    · exact ⟨⟨good, fun _ _ _ held => by cases held⟩, .nil⟩
    · intro s a s' _ inv hs
      exact ⟨placed_step iso inv.1 hs, linear_step iso inv.1 inv.2 hs⟩
  exact both.2

def submittedBy (i : ι) : Action ι κ Op → List (κ × Op)
  | .submit j calls => if j = i then calls else []
  | _ => []

/-- The calls given to thread `i` along a history. -/
def submitted (i : ι) (h : List (State ι κ Op Point σ × Action ι κ Op)) : List (κ × Op) :=
  h.flatMap fun x => submittedBy i x.2

/-- The operations of a list of calls of thread `i` that take the lock of object `k`. -/
def taking (m : κ → Monitor ι Op Point σ) (i : ι) (k : κ) (calls : List (κ × Op)) : List Op :=
  calls.flatMap fun call =>
    match (m call.1).enter i call.2 with
    | .locks _ => if call.1 = k then [call.2] else []
    | _ => []

def ofThread (i : ι) (ops : List (ι × Op)) : List Op :=
  (ops.filter fun x => x.1 = i).map Prod.snd

theorem ofThread_append (i : ι) (xs ys : List (ι × Op)) :
    ofThread i (xs ++ ys) = ofThread i xs ++ ofThread i ys := by
  simp [ofThread]

/-- The operations of thread `i` on object `k`: those that took the lock, then those to come. -/
def ofThreadOn (m : κ → Monitor ι Op Point σ) (i : ι) (k : κ) (s : State ι κ Op Point σ) :
    List Op :=
  ofThread i (s.order k) ++ taking m i k (s.threads i).todo

theorem ofThreadOn_step (i : ι) (k : κ) (hs : step m s a = some s') :
    ofThreadOn m i k s' = ofThreadOn m i k s ++ taking m i k (submittedBy i a) := by
  have other {j : ι} {thread : Thread κ Op} (h : j ≠ i) :
      (s.setThread j thread).threads i = s.threads i :=
    Function.update_of_ne (Ne.symm h) _ _
  cases steps_of_step hs with
  | submit j calls idle =>
      by_cases same : j = i
      · subst same
        simp [ofThreadOn, submittedBy, idle, taking]
      · simp [ofThreadOn, submittedBy, other same, same, taking]
  | returns j k' op rest here enters =>
      by_cases same : j = i
      · subst same
        simp [ofThreadOn, submittedBy, here, taking, enters]
      · simp only [ofThreadOn, other same, State.setThread_order]
        simp [submittedBy, taking]
  | locks j k' op rest p here enters free =>
      have order : ofThread i (Function.update s.order k' (s.order k' ++ [(j, op)]) k) =
          ofThread i (s.order k) ++ if k' = k ∧ j = i then [op] else [] := by
        by_cases there : k' = k
        · subst there
          rw [Function.update_self, ofThread_append]
          by_cases same : j = i <;> simp [ofThread, same]
        · rw [Function.update_of_ne (Ne.symm there)]
          simp [there]
      by_cases same : j = i
      · subst same
        simp [ofThreadOn, submittedBy, here, taking, enters, order]
      · simp [ofThreadOn, submittedBy, taking, order, same, Function.update_of_ne (Ne.symm same)]
  | goesOn => simp [ofThreadOn, submittedBy, taking]
  | releases j k' todo p shared here =>
      by_cases same : j = i
      · subst same
        simp [ofThreadOn, submittedBy, here, taking]
      · simp only [ofThreadOn, other same, State.setThread_order]
        simp [submittedBy, taking]

/-- Whatever the interleaving, each thread's operations take an object's lock in the order of its
calls, each once. -/
theorem calls_in_program_order {shared : σ} {h : List (State ι κ Op Point σ × Action ι κ Op)}
    (run : (machine m shared).Execution h s) (i : ι) (k : κ) :
    ofThreadOn m i k s = taking m i k (submitted i h) := by
  induction run with
  | start => rfl
  | @next h s s' a _ hs ih =>
      rw [ofThreadOn_step i k hs, ih]
      simp [submitted, taking]

end

end Threads
end Logrin.Library
