import KoishiDB.Base.Exec
import Mathlib.Data.Prod.Lex
import Mathlib.Order.OrderDual

/-!
# Three-way comparison

A comparator returns a number whose sign says how two keys compare.  `Decides cmp D rank` says
that `cmp` does this faithfully on the keys of a domain `D`: it faults on none of them, and the
sign it returns is the order of the ranks.  Keys of equal rank are the same key to the comparator.

`TotalOrder cmp D` says without a rank that `cmp` compares the keys of `D` as a total order, with
the three results `-1`, `0` and `1`; a comparator that compares ranks does
(`TotalOrder.of_threeWay`).
-/

namespace KoishiDB

variable {K α : Type} [LinearOrder α]

/-- The comparison of two elements as a number: `-1`, `0` or `1`. -/
def threeWay (a b : α) : ℤ := if a < b then -1 else if a = b then 0 else 1

theorem threeWay_mem (a b : α) : threeWay a b = -1 ∨ threeWay a b = 0 ∨ threeWay a b = 1 := by
  unfold threeWay
  split_ifs <;> simp

theorem threeWay_neg {a b : α} : threeWay a b < 0 ↔ a < b := by
  unfold threeWay; split_ifs <;> simp_all

theorem threeWay_eq_neg_one {a b : α} : threeWay a b = -1 ↔ a < b := by
  unfold threeWay
  split_ifs with h <;> simp_all

theorem threeWay_eq_zero {a b : α} : threeWay a b = 0 ↔ a = b := by
  unfold threeWay; split_ifs with h <;> simp_all [ne_of_lt]

theorem threeWay_eq_one {a b : α} : threeWay a b = 1 ↔ b < a := by
  unfold threeWay
  split_ifs with h h'
  · simp [h.le]
  · simp [h']
  · simpa using lt_of_le_of_ne (not_lt.1 h) (Ne.symm h')

theorem threeWay_le_zero {a b : α} : threeWay a b ≤ 0 ↔ a ≤ b := by
  rw [le_iff_lt_or_eq, threeWay_neg, threeWay_eq_zero, le_iff_lt_or_eq]

theorem threeWay_swap (a b : α) : threeWay b a = -threeWay a b := by
  rcases lt_trichotomy a b with h | h | h
  · rw [threeWay_eq_neg_one.2 h, threeWay_eq_one.2 h, Int.neg_neg]
  · rw [threeWay_eq_zero.2 h, threeWay_eq_zero.2 h.symm, Int.neg_zero]
  · rw [threeWay_eq_one.2 h, threeWay_eq_neg_one.2 h]

/-- On the keys in `D` the comparator `cmp` does not fault, and the sign of its result is the
order of the ranks. -/
structure Decides (cmp : K → K → Exec ℤ) (D : K → Prop) (rank : K → α) : Prop where
  cmp_ok : ∀ {a b : K}, D a → D b →
    ∃ c, cmp a b = .ok c ∧ (c < 0 ↔ rank a < rank b) ∧ (c = 0 ↔ rank a = rank b)

theorem Decides.of_threeWay {cmp : K → K → Exec ℤ} {D : K → Prop} {rank : K → α}
    (h : ∀ a b, D a → D b → cmp a b = .ok (threeWay (rank a) (rank b))) : Decides cmp D rank :=
  ⟨fun ha hb => ⟨_, h _ _ ha hb, threeWay_neg, threeWay_eq_zero⟩⟩

/-- On the keys in `D` the comparator `cmp` does not fault, returns `-1`, `0` or `1`, and is a total
order: exchanging the keys changes the sign, and "not larger" is transitive and total. -/
structure TotalOrder (cmp : K → K → Exec ℤ) (D : K → Prop) : Prop where
  normal : ∀ a b, D a → D b → ∃ c, cmp a b = .ok c ∧ (c = -1 ∨ c = 0 ∨ c = 1)
  antisymm : ∀ a b c, D a → D b → cmp a b = .ok c → cmp b a = .ok (-c)
  trans : ∀ a b d c c', D a → D b → D d → cmp a b = .ok c → c ≤ 0 → cmp b d = .ok c' → c' ≤ 0 →
    ∃ c'', cmp a d = .ok c'' ∧ c'' ≤ 0
  total : ∀ a b, D a → D b → ∃ c, (cmp a b = .ok c ∨ cmp b a = .ok c) ∧ c ≤ 0

theorem TotalOrder.of_threeWay {cmp : K → K → Exec ℤ} {D : K → Prop} (rank : K → α)
    (h : ∀ a b, D a → D b → cmp a b = .ok (threeWay (rank a) (rank b))) : TotalOrder cmp D where
  normal a b ha hb := ⟨_, h a b ha hb, threeWay_mem _ _⟩
  antisymm a b c ha hb hc := by
    rw [h a b ha hb, Except.ok.injEq] at hc
    rw [h b a hb ha, threeWay_swap, hc]
  trans a b d c c' ha hb hd hc hle hc' hle' := by
    rw [h a b ha hb, Except.ok.injEq] at hc
    rw [h b d hb hd, Except.ok.injEq] at hc'
    subst hc hc'
    exact ⟨_, h a d ha hd,
      threeWay_le_zero.2 ((threeWay_le_zero.1 hle).trans (threeWay_le_zero.1 hle'))⟩
  total a b ha hb := by
    rcases le_total (rank a) (rank b) with hab | hba
    · exact ⟨_, .inl (h a b ha hb), threeWay_le_zero.2 hab⟩
    · exact ⟨_, .inr (h b a hb ha), threeWay_le_zero.2 hba⟩

end KoishiDB
