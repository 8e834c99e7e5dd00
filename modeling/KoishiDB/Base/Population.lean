import Mathlib.Data.List.Perm.Basic
import Mathlib.Algebra.BigOperators.Group.List.Basic
import Mathlib.Tactic.Linarith
import KoishiDB.Base.Lock
import KoishiDB.Base.Machine

/-!
# Populations of threads, and bounds on runs

A list says where each thread is.  When one of them moves, a sum over all threads changes by what
that thread contributes, and so does a list that collects something from each of them
(`sum_map_set_add`, `filterMap_set_perm`).

`Machine.run_length_le` turns such a sum into a bound: if every step takes one off it, except for
what the label pays in, then a run is no longer than the sum at its start and all that is paid in.
-/

namespace KoishiDB

section

variable {α β : Type} {l : List α} {i : ℕ} {a : α}

/-- Another element is still there after one has been replaced. -/
theorem getElem?_set_other {j : ℕ} {b : α} (hi : l[i]? = some a) (hj : l[j]? = some b)
    (hne : a ≠ b) (c : α) : (l.set j c)[i]? = some a := by
  rw [List.getElem?_set_ne, hi]
  rintro rfl
  exact hne (Option.some.inj (hi.symm.trans hj))

/-- A sum after one element has been replaced. -/
theorem sum_map_set_add {f : α → ℕ} (hi : l[i]? = some a) (b : α) :
    ((l.set i b).map f).sum + f a = (l.map f).sum + f b := by
  induction l generalizing i with
  | nil => cases hi
  | cons x l ih =>
    cases i with
    | zero =>
      cases hi
      simp only [List.set_cons_zero, List.map_cons, List.sum_cons]
      omega
    | succ i =>
      have h := ih (i := i) hi
      simp only [List.set_cons_succ, List.map_cons, List.sum_cons]
      omega

/-- What is collected after one element has been replaced, up to the order. -/
theorem filterMap_set_perm {f : α → Option β} (hi : l[i]? = some a) (b : α) :
    ((l.set i b).filterMap f ++ (f a).toList).Perm (l.filterMap f ++ (f b).toList) := by
  induction l generalizing i with
  | nil => cases hi
  | cons x l ih =>
    cases i with
    | zero =>
      cases hi
      have hcons : ∀ x : α, (x :: l).filterMap f = (f x).toList ++ l.filterMap f := by
        intro x
        cases hx : f x with
        | none => rw [List.filterMap_cons_none hx, Option.toList_none, List.nil_append]
        | some y => rw [List.filterMap_cons_some hx]; rfl
      rw [List.set_cons_zero, hcons, hcons]
      refine List.perm_append_comm.trans ?_
      rw [List.append_assoc]
      exact List.perm_append_comm.append_left _
    | succ i =>
      have h := ih (i := i) hi
      rw [List.set_cons_succ]
      cases hx : f x with
      | none =>
        rw [List.filterMap_cons_none hx, List.filterMap_cons_none hx]
        exact h
      | some y =>
        rw [List.filterMap_cons_some hx, List.filterMap_cons_some hx]
        exact h.cons y

/-- A thread moves that what is collected does not depend on. -/
theorem filterMap_set_of_eq {f : α → Option β} {b : α} (hi : l[i]? = some a) (hab : f b = f a) :
    (l.set i b).filterMap f = l.filterMap f := by
  have hmap : ∀ l : List α, l.filterMap f = (l.map f).filterMap id := by
    intro l
    rw [List.filterMap_map]
    rfl
  rw [hmap, hmap, map_set_of_eq hi hab]

end

namespace Machine

variable {S L : Type} {step : S → L → Exec S} {C : S → L → Prop}

/-- **The bound on runs.**  Every step takes one off the measure, except for what its label pays
in. -/
theorem run_length_le {I : S → Prop} {m : S → ℕ} {c : L → ℕ}
    (hstep : ∀ s l t, I s → C s l → step s l = .ok t → I t ∧ m t + 1 ≤ m s + c l)
    {s u : S} {ls : List L} (h₀ : I s) (hC : Along step C s ls) (h : run step s ls = .ok u) :
    m u + ls.length ≤ m s + (ls.map c).sum := by
  induction ls generalizing s with
  | nil =>
    cases h
    simp
  | cons l ls ih =>
    obtain ⟨t, hst, hrun⟩ := run_cons_ok.1 h
    obtain ⟨ht, hle⟩ := hstep s l t h₀ hC.1 hst
    have hrest := ih ht (hC.2 t hst) hrun
    simp only [List.length_cons, List.map_cons, List.sum_cons]
    omega

end Machine

end KoishiDB
