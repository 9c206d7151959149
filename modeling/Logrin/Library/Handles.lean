import Mathlib.Data.List.Basic

/-!
A table of output handles: which are open, and what has been written to each.
-/

namespace Logrin.Library

universe u v

structure Handles (η : Type u) (β : Type v) where
  opened : η → Bool
  written : η → List β

namespace Handles
variable {η : Type u} {β : Type v} [DecidableEq η]

def append (t : Handles η β) (handle : η) (bytes : List β) : Handles η β :=
  { t with written := Function.update t.written handle (t.written handle ++ bytes) }

/-- The table after a write, and whether it succeeded: a closed handle takes nothing. -/
def write (t : Handles η β) (handle : η) (bytes : List β) : Handles η β × Bool :=
  if t.opened handle then (t.append handle bytes, true) else (t, false)

def close (t : Handles η β) (handle : η) : Handles η β :=
  { t with opened := Function.update t.opened handle false }

variable (t : Handles η β) {handle other : η}

@[simp] theorem append_opened (bytes : List β) : (t.append handle bytes).opened = t.opened := rfl

@[simp] theorem append_written_self (bytes : List β) :
    (t.append handle bytes).written handle = t.written handle ++ bytes := by
  simp [append]

theorem append_written_ne (h : other ≠ handle) (bytes : List β) :
    (t.append handle bytes).written other = t.written other := by
  simp [append, h]

theorem append_append (bytes more : List β) :
    (t.append handle bytes).append handle more = t.append handle (bytes ++ more) := by
  simp only [append, Function.update_self, Function.update_idem, List.append_assoc]

@[simp] theorem close_opened_self : (t.close handle).opened handle = false := by
  simp [close]

theorem close_opened_ne (h : other ≠ handle) : (t.close handle).opened other = t.opened other := by
  simp [close, h]

theorem write_of_open {t : Handles η β} (h : t.opened handle = true) (bytes : List β) :
    t.write handle bytes = (t.append handle bytes, true) :=
  if_pos h

theorem write_of_closed {t : Handles η β} (h : t.opened handle = false) (bytes : List β) :
    t.write handle bytes = (t, false) :=
  if_neg (ne_true_of_eq_false h)

/-- No write opens or closes a handle. -/
theorem write_opened (bytes : List β) : (t.write handle bytes).1.opened = t.opened := by
  rw [write]
  split <;> rfl

end Handles
end Logrin.Library
