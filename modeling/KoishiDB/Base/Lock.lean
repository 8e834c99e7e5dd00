import Mathlib.Tactic.Common

/-!
# An exclusive lock

Threads are numbered by their place in a list that says where each of them is.  Some of these points
belong to the critical section of a lock.  The lock is `Exclusive` if its holder is exactly the
thread that is at such a point.  The lemmas say what keeps it that way: taking the lock when it is
free, giving it back, moving inside or outside the critical section, and new threads outside.
-/

namespace KoishiDB

/-- What does not tell the new element from the old one does not see the change. -/
theorem map_set_of_eq {α β : Type} {f : α → β} {l : List α} {i : ℕ} {a b : α} (hi : l[i]? = some a)
    (hab : f b = f a) : (l.set i b).map f = l.map f := by
  apply List.ext_getElem?
  intro j
  rw [List.map_set, List.getElem?_set]
  split_ifs with heq hlt
  · rw [← heq, List.getElem?_map, hi, hab]
    rfl
  · rw [← heq, List.getElem?_eq_none (Nat.not_lt.1 hlt)]
  · rfl

theorem countP_eq_of_map_eq {α : Type} {f : α → Bool} {l l' : List α} (h : l'.map f = l.map f) :
    l'.countP f = l.countP f := by
  have hmap : ∀ l : List α, l.countP f = (l.map f).countP id := by
    intro l
    rw [List.countP_map]
    rfl
  rw [hmap, hmap, h]

/-- Counting after one element has been replaced. -/
theorem countP_set_add {α : Type} {f : α → Bool} {l : List α} {i : ℕ} {a : α} (hi : l[i]? = some a)
    (b : α) : (l.set i b).countP f + (f a).toNat = l.countP f + (f b).toNat := by
  obtain ⟨hlt, rfl⟩ := List.getElem?_eq_some_iff.1 hi
  have hle : f l[i] = true → 0 < l.countP f := fun h =>
    List.countP_pos_iff.2 ⟨_, List.getElem_mem hlt, h⟩
  rw [List.countP_set hlt]
  cases ha : f l[i] <;> cases f b <;> simp_all

section

variable {P : Type} (holds : P → Bool)

/-- The holder of the lock is the only thread at a point of its critical section. -/
def Exclusive (lock : Option ℕ) (points : List P) : Prop :=
  ∀ t, lock = some t ↔ (points.map holds)[t]? = some true

end

namespace Exclusive

variable {P : Type} {holds : P → Bool} {lock : Option ℕ} {points points' new : List P} {t u : ℕ}
  {p q : P}

theorem nil : Exclusive holds none ([] : List P) := by
  simp [Exclusive]

/-- Only what the points say about the lock matters. -/
theorem congr (h : Exclusive holds lock points) (heq : points'.map holds = points.map holds) :
    Exclusive holds lock points' := by
  intro t
  rw [heq]
  exact h t

theorem append (h : Exclusive holds lock points) (hnew : ∀ p ∈ new, holds p = false) :
    Exclusive holds lock (points ++ new) := by
  intro t
  rw [h t, List.map_append, List.getElem?_append]
  split_ifs with ht
  · rfl
  · rw [List.getElem?_eq_none (Nat.not_lt.1 ht), List.getElem?_map]
    simp only [reduceCtorEq, Option.map_eq_some_iff, false_iff, not_exists, not_and]
    intro p hp
    rw [hnew p (List.mem_of_getElem? hp)]
    exact Bool.false_ne_true

/-- A thread moves, and is inside the critical section before and after, or outside. -/
theorem move (h : Exclusive holds lock points) (ht : points[t]? = some p)
    (hpq : holds q = holds p) : Exclusive holds lock (points.set t q) :=
  h.congr (map_set_of_eq ht hpq)

theorem acquire (h : Exclusive holds none points) (ht : points[t]? = some p)
    (hq : holds q = true) : Exclusive holds (some t) (points.set t q) := by
  intro u
  have hlt : t < points.length := (List.getElem?_eq_some_iff.1 ht).1
  rw [List.map_set, List.getElem?_set, List.length_map, if_pos hlt, hq, Option.some.injEq]
  split_ifs with heq
  · simp [heq]
  · rw [← h u]
    simp [heq]

theorem release (h : Exclusive holds (some t) points) (hq : holds q = false) :
    Exclusive holds none (points.set t q) := by
  intro u
  rw [List.map_set, List.getElem?_set, hq]
  split_ifs with heq hlt
  · simp
  · simp
  · rw [← h u]
    simp [heq]

/-- A thread in the critical section holds the lock. -/
theorem lock_eq (h : Exclusive holds lock points) (ht : points[t]? = some p)
    (hp : holds p = true) : lock = some t :=
  (h t).2 (by rw [List.getElem?_map, ht, Option.map_some, hp])

/-- The other threads are outside. -/
theorem outside (h : Exclusive holds (some t) points) (hu : points[u]? = some p) (hne : u ≠ t) :
    holds p = false := by
  cases hp : holds p with
  | false => rfl
  | true => exact absurd (Option.some.inj (h.lock_eq hu hp)).symm hne

end Exclusive

end KoishiDB
