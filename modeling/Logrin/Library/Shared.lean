import Mathlib.Data.List.Count
import Mathlib.Data.List.Pairwise

/-!
Objects kept by reference counts. A control block counts the pointers to its object, and the last
of them deletes the object; nothing keeps an object from getting two blocks. An invariant ties the
counts to the pointers that are held, and from it follows what is deleted, how often, and that no
pointer leads to a deleted object unless there were two blocks.
-/

namespace Logrin.Library

universe u

/-- What happens to objects. -/
inductive Touch (ω : Type u) where
  | use (object : ω)
  | delete (object : ω)
  deriving DecidableEq

/-- Control blocks, each the object and how many pointers it counts. A pointer is the position of
its block. -/
structure Blocks (ω : Type u) where
  counts : List (ω × Nat)
  touched : List (Touch ω)

namespace Blocks
variable {ω : Type u}

def empty : Blocks ω where
  counts := []
  touched := []

/-- A first pointer to an object, which is not looked for among the blocks. -/
def adopt (b : Blocks ω) (object : ω) : Blocks ω :=
  { b with counts := b.counts ++ [(object, 1)] }

def retain (b : Blocks ω) (p : Nat) : Blocks ω :=
  match b.counts[p]? with
  | some (object, n) => { b with counts := b.counts.set p (object, n + 1) }
  | none => b

def release (b : Blocks ω) (p : Nat) : Blocks ω :=
  match b.counts[p]? with
  | some (object, n + 1) =>
      { counts := b.counts.set p (object, n)
        touched := if n = 0 then b.touched ++ [.delete object] else b.touched }
  | some (_, 0) | none => b

def use (b : Blocks ω) (p : Nat) : Blocks ω :=
  match b.counts[p]? with
  | some (object, _) => { b with touched := b.touched ++ [.use object] }
  | none => b

def adoptAll (b : Blocks ω) (objects : List ω) : Blocks ω := objects.foldl adopt b

def retainAll (b : Blocks ω) (ps : List Nat) : Blocks ω := ps.foldl retain b

def releaseAll (b : Blocks ω) (ps : List Nat) : Blocks ω := ps.foldl release b

def useAll (b : Blocks ω) (ps : List Nat) : Blocks ω := ps.foldl use b

/-- The pointers that `adoptAll` makes. -/
def fresh (b : Blocks ω) (n : Nat) : List Nat := List.range' b.counts.length n

def object (b : Blocks ω) (p : Nat) : Option ω := b.counts[p]?.map Prod.fst

variable [DecidableEq ω]

/-- The blocks there have been for an object. -/
def adoptions (b : Blocks ω) (o : ω) : Nat := b.counts.countP fun c => c.1 = o

/-- The blocks that still count a pointer. -/
def alive (b : Blocks ω) (o : ω) : Nat := b.counts.countP fun c => c.1 = o && c.2 ≠ 0

/-- No use of the object comes after a deletion. -/
def Intact (touched : List (Touch ω)) (o : ω) : Prop :=
  touched.Pairwise fun x y => x = .delete o → y ≠ .use o

/-- The blocks count the pointers that are held. -/
structure Owned (b : Blocks ω) (held : List Nat) : Prop where
  inside : ∀ p ∈ held, p < b.counts.length
  counted : ∀ p c, b.counts[p]? = some c → c.2 = held.count p
  deleted : ∀ o, b.touched.count (.delete o) + b.alive o = b.adoptions o
  intact : ∀ o, b.adoptions o ≤ 1 → Intact b.touched o

variable {b : Blocks ω} {held ps : List Nat} {p : Nat} {o : ω}

theorem owned_empty : Owned (empty : Blocks ω) [] where
  inside := fun _ member => by cases member
  counted := fun _ _ found => by cases found
  deleted := fun _ => rfl
  intact := fun _ _ => .nil

namespace Owned

theorem perm {held' : List Nat} (h : Owned b held) (same : held.Perm held') : Owned b held' where
  inside := fun p member => h.inside p (same.mem_iff.mpr member)
  counted := fun p c found => same.count_eq p ▸ h.counted p c found
  deleted := h.deleted
  intact := h.intact

/-- A held pointer has a block that counts it. -/
theorem block (h : Owned b held) (member : p ∈ held) :
    ∃ o n, b.counts[p]? = some (o, n + 1) := by
  have inside := h.inside p member
  have found := List.getElem?_eq_getElem inside
  have some : b.counts[p].2 ≠ 0 := by
    rw [h.counted p _ found]
    exact Nat.pos_iff_ne_zero.mp (List.count_pos_iff.mpr member)
  obtain ⟨n, same⟩ := Nat.exists_eq_succ_of_ne_zero some
  exact ⟨_, n, by rw [found, ← Nat.succ_eq_add_one, ← same]⟩

theorem alive_pos {n : Nat} (found : b.counts[p]? = some (o, n + 1)) : 0 < b.alive o :=
  List.countP_pos_iff.mpr ⟨_, List.mem_of_getElem? found, by simp⟩

/-- An object with one block is there as long as the block counts a pointer. -/
theorem not_deleted {n : Nat} (h : Owned b held) (found : b.counts[p]? = some (o, n + 1))
    (once : b.adoptions o ≤ 1) : .delete o ∉ b.touched := by
  have balance := h.deleted o
  have some := alive_pos found
  rw [← List.count_eq_zero]
  omega

theorem adopt (h : Owned b held) (new : ω) :
    Owned (b.adopt new) (b.counts.length :: held) where
  inside := by
    simp only [Blocks.adopt, List.length_append, List.length_singleton]
    intro p member
    cases member with
    | head => exact Nat.lt_succ_self _
    | tail _ member => exact Nat.lt_succ_of_lt (h.inside p member)
  counted := by
    intro p c found
    obtain old | rfl | past := Nat.lt_trichotomy p b.counts.length
    · rw [Blocks.adopt, List.getElem?_append_left old] at found
      rw [List.count_cons_of_ne (Nat.ne_of_gt old), h.counted p c found]
    · rw [Blocks.adopt, List.getElem?_concat_length] at found
      have none : held.count b.counts.length = 0 :=
        List.count_eq_zero.mpr fun member => Nat.lt_irrefl _ (h.inside _ member)
      rw [List.count_cons_self, none, ← Option.some.inj found]
    · have inside := (List.getElem?_eq_some_iff.mp found).choose
      simp only [Blocks.adopt, List.length_append, List.length_singleton] at inside
      omega
  deleted := by
    intro o
    have balance := h.deleted o
    simp only [Blocks.adopt, alive, adoptions, List.countP_append, List.countP_singleton,
      ne_eq, Nat.succ_ne_zero, not_false_eq_true, decide_true, Bool.and_true] at balance ⊢
    omega
  intact := by
    intro o once
    refine h.intact o (Nat.le_trans ?_ once)
    simp only [Blocks.adopt, adoptions, List.countP_append]
    exact Nat.le_add_right _ _

theorem use (h : Owned b held) (member : p ∈ held) : Owned (b.use p) held := by
  obtain ⟨o, n, found⟩ := h.block member
  simp only [Blocks.use, found]
  exact {
    inside := h.inside
    counted := h.counted
    deleted := fun o' => by
      rw [List.count_append]
      exact h.deleted o'
    intact := fun o' once => by
      refine List.pairwise_append.mpr ⟨h.intact o' once, List.pairwise_singleton _ _, ?_⟩
      intro x before y last gone again
      obtain rfl := List.mem_singleton.mp last
      cases again
      exact h.not_deleted found once (gone ▸ before) }

section Recount
variable {n m : Nat} {touched : List (Touch ω)} {held' : List Nat}

theorem adoptions_set (found : b.counts[p]? = some (o, n)) (o' : ω) :
    (Blocks.mk (b.counts.set p (o, m)) touched).adoptions o' = b.adoptions o' := by
  obtain ⟨inside, same⟩ := List.getElem?_eq_some_iff.mp found
  have some : o = o' → 0 < b.counts.countP fun c => c.1 = o' := fun here =>
    List.countP_pos_iff.mpr ⟨_, List.getElem_mem inside, by simp [same, here]⟩
  simp only [adoptions, List.countP_set inside, same, decide_eq_true_eq]
  split
  · next here =>
      have := some here
      omega
  · rfl

theorem alive_set (found : b.counts[p]? = some (o, n + 1)) (m : Nat) (touched : List (Touch ω))
    (o' : ω) :
    (Blocks.mk (b.counts.set p (o, m)) touched).alive o' + (if o = o' ∧ m = 0 then 1 else 0) =
      b.alive o' := by
  obtain ⟨inside, same⟩ := List.getElem?_eq_some_iff.mp found
  have counts : (Blocks.mk (b.counts.set p (o, m)) touched).alive o' =
      b.alive o' - (if o = o' then 1 else 0) + if o = o' ∧ m ≠ 0 then 1 else 0 := by
    simp [alive, List.countP_set inside, same]
  by_cases here : o = o'
  · have some := alive_pos found
    rw [here] at some
    by_cases none : m = 0
    · rw [counts, if_pos here, if_neg (by simp [none]), if_pos ⟨here, none⟩]
      omega
    · rw [counts, if_pos here, if_pos ⟨here, none⟩, if_neg (by simp [none])]
      omega
  · rw [counts, if_neg here, if_neg (by simp [here]), if_neg (by simp [here])]
    rfl

theorem counted_set (h : Owned b held) (here : m = held'.count p)
    (others : ∀ q, q ≠ p → held'.count q = held.count q) :
    ∀ q c, (b.counts.set p (o, m))[q]? = some c → c.2 = held'.count q := by
  intro q c found
  rw [List.getElem?_set] at found
  split at found
  · next same =>
      subst same
      split at found
      · rw [← Option.some.inj found, here]
      · cases found
  · next other => rw [h.counted q c found, others q (Ne.symm other)]

theorem retain (h : Owned b held) (member : p ∈ held) : Owned (b.retain p) (p :: held) := by
  obtain ⟨o, n, found⟩ := h.block member
  have count : n + 1 = held.count p := h.counted p _ found
  simp only [Blocks.retain, found]
  exact {
    inside := fun q member' => by
      rw [List.length_set]
      cases member' with
      | head => exact h.inside p member
      | tail _ member' => exact h.inside q member'
    counted := h.counted_set (by rw [List.count_cons_self, ← count])
      fun q other => List.count_cons_of_ne (Ne.symm other)
    deleted := fun o' => by
      rw [adoptions_set found, ← h.deleted o', ← alive_set found (n + 2) b.touched o',
        if_neg (by simp)]
      rfl
    intact := fun o' once => h.intact o' (by rwa [adoptions_set found] at once) }

theorem release (h : Owned b (p :: held)) : Owned (b.release p) held := by
  obtain ⟨o, n, found⟩ := h.block List.mem_cons_self
  have count : n + 1 = (p :: held).count p := h.counted p _ found
  rw [List.count_cons_self] at count
  simp only [Blocks.release, found]
  exact {
    inside := fun q member => by
      rw [List.length_set]
      exact h.inside q (List.mem_cons_of_mem p member)
    counted := h.counted_set (by omega) fun q other =>
      (List.count_cons_of_ne (Ne.symm other)).symm
    deleted := fun o' => by
      rw [adoptions_set found, ← h.deleted o', ← alive_set found n b.touched o']
      have deletes : (b.touched ++ [Touch.delete o]).count (.delete o') =
          b.touched.count (.delete o') + if o = o' then 1 else 0 := by
        simp [List.count_append, List.count_singleton]
      by_cases last : n = 0
      · simp only [last, if_true, and_true, deletes]
        rw [Nat.add_right_comm, Nat.add_assoc]
        rfl
      · simp only [last, if_false, and_false]
        rfl
    intact := fun o' once => by
      rw [adoptions_set found] at once
      split
      · refine List.pairwise_append.mpr ⟨h.intact o' once, List.pairwise_singleton _ _, ?_⟩
        intro x before y last gone again
        obtain rfl := List.mem_singleton.mp last
        cases again
      · exact h.intact o' once }

end Recount

section Lists
variable {objects : List ω}

theorem adoptAll (h : Owned b held) (objects : List ω) :
    Owned (b.adoptAll objects) (b.fresh objects.length ++ held) := by
  induction objects generalizing b held with
  | nil => exact h
  | cons object objects ih =>
      have rest := ih (h.adopt object)
      refine rest.perm ?_
      simp only [Blocks.fresh, Blocks.adopt, List.length_append, List.length_cons,
        List.length_nil, List.range'_succ]
      exact List.perm_middle

theorem retainAll (h : Owned b held) (inside : ∀ p ∈ ps, p ∈ held) :
    Owned (b.retainAll ps) (ps ++ held) := by
  induction ps generalizing b held with
  | nil => exact h
  | cons p ps ih =>
      obtain ⟨first, others⟩ := List.forall_mem_cons.mp inside
      have rest := ih (h.retain first) fun q member => List.mem_cons_of_mem p (others q member)
      exact rest.perm List.perm_middle

theorem releaseAll (h : Owned b (ps ++ held)) : Owned (b.releaseAll ps) held := by
  induction ps generalizing b with
  | nil => exact h
  | cons p ps ih => exact ih h.release

theorem useAll (h : Owned b held) (inside : ∀ p ∈ ps, p ∈ held) : Owned (b.useAll ps) held := by
  induction ps generalizing b with
  | nil => exact h
  | cons p ps ih =>
      obtain ⟨first, others⟩ := List.forall_mem_cons.mp inside
      exact ih (h.use first) others

end Lists

/-- Deletions while no pointer is held. -/
theorem gone (h : Owned b []) (o : ω) : b.touched.count (.delete o) = b.adoptions o := by
  have none : b.alive o = 0 := by
    rw [alive, List.countP_eq_zero]
    intro c member
    obtain ⟨p, inside, rfl⟩ := List.getElem_of_mem member
    have zero := h.counted p _ (List.getElem?_eq_getElem inside)
    simp [zero]
  rw [← h.deleted o, none]
  rfl

/-- An object that was adopted once is deleted with the last pointer to it. -/
theorem deleted_iff (h : Owned b held) (once : b.adoptions o = 1) :
    .delete o ∈ b.touched ↔ ∀ p ∈ held, b.object p ≠ some o := by
  constructor
  · intro gone p member same
    obtain ⟨o', n, found⟩ := h.block member
    rw [object, found] at same
    cases same
    exact h.not_deleted found (Nat.le_of_eq once) gone
  · intro none
    have zero : b.alive o = 0 := by
      rw [alive, List.countP_eq_zero]
      intro c member both
      obtain ⟨p, inside, rfl⟩ := List.getElem_of_mem member
      have found := List.getElem?_eq_getElem inside
      simp only [Bool.and_eq_true, decide_eq_true_eq] at both
      refine none p (List.count_pos_iff.mp ?_) (by rw [object, found, ← both.1]; rfl)
      rw [← h.counted p _ found]
      exact Nat.pos_of_ne_zero both.2
    have balance := h.deleted o
    rw [zero, once] at balance
    exact List.count_pos_iff.mp (by omega)

end Owned

section Adoptions

theorem adoptions_adopt (b : Blocks ω) (object o : ω) :
    (b.adopt object).adoptions o = b.adoptions o + [object].count o := by
  simp [adopt, adoptions, List.countP_append, List.countP_singleton, List.count_singleton]

@[simp] theorem adoptions_retain (b : Blocks ω) (p : Nat) (o : ω) :
    (b.retain p).adoptions o = b.adoptions o := by
  rw [retain]
  split
  · next found => exact Owned.adoptions_set found o
  · rfl

@[simp] theorem adoptions_release (b : Blocks ω) (p : Nat) (o : ω) :
    (b.release p).adoptions o = b.adoptions o := by
  rw [release]
  split
  · next found => exact Owned.adoptions_set found o
  · rfl
  · rfl

@[simp] theorem adoptions_use (b : Blocks ω) (p : Nat) (o : ω) :
    (b.use p).adoptions o = b.adoptions o := by
  rw [use]
  split <;> rfl

theorem adoptions_adoptAll (b : Blocks ω) (objects : List ω) (o : ω) :
    (b.adoptAll objects).adoptions o = b.adoptions o + objects.count o := by
  induction objects generalizing b with
  | nil => rfl
  | cons object objects ih =>
      have rest := ih (b.adopt object)
      rw [adoptions_adopt, Nat.add_assoc, ← List.count_append] at rest
      exact rest

@[simp] theorem adoptions_retainAll (b : Blocks ω) (ps : List Nat) (o : ω) :
    (b.retainAll ps).adoptions o = b.adoptions o := by
  induction ps generalizing b with
  | nil => rfl
  | cons p ps ih => exact (ih (b.retain p)).trans (adoptions_retain b p o)

@[simp] theorem adoptions_releaseAll (b : Blocks ω) (ps : List Nat) (o : ω) :
    (b.releaseAll ps).adoptions o = b.adoptions o := by
  induction ps generalizing b with
  | nil => rfl
  | cons p ps ih => exact (ih (b.release p)).trans (adoptions_release b p o)

@[simp] theorem adoptions_useAll (b : Blocks ω) (ps : List Nat) (o : ω) :
    (b.useAll ps).adoptions o = b.adoptions o := by
  induction ps generalizing b with
  | nil => rfl
  | cons p ps ih => exact (ih (b.use p)).trans (adoptions_use b p o)

end Adoptions

end Blocks
end Logrin.Library
