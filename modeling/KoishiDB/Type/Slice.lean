import KoishiDB.Base.Order
import KoishiDB.Common

/-!
# Slices

`type/slice.cc`.  A slice is a pointer and a size, and nothing ties the size to the object that the
pointer points into.  `Slice::Compare` hands both to `memcmp`; it reads outside of the objects only
if they do not differ before their end.

Slices of whole buffers are written as byte strings; `sliceCompare` is `Slice::Compare` of two of
them, and decides the order of byte strings.  The zero byte behind a `std::string` matters only to a
comparison that reads on behind it, that is, for keys without the eight bytes of their tag; it is
kept for the keys of file metas, for `InternalKey` objects and for `c_str()`.
-/

namespace KoishiDB

/-! ### Byte strings -/

/-- `memcmp` of the first `n` bytes; it ends at the first difference. -/
def memcmp : ℕ → Bytes → Bytes → ℤ
  | n + 1, a :: as, b :: bs => if a = b then memcmp n as bs else (a.toNat : ℤ) - b.toNat
  | _, _, _ => 0

/-- What `Slice::Compare` makes of the result of `memcmp` and the two sizes. -/
def compareSizes (r : ℤ) (size thatSize : ℕ) : ℤ :=
  if r < 0 then -1
  else if r > 0 then 1
  else if size < thatSize then -1
  else if size > thatSize then 1
  else r

/-- `Slice::Compare` for the slices of two whole buffers. -/
def sliceCompare (a b : Bytes) : ℤ :=
  let minLen := if a.length < b.length then a.length else b.length
  compareSizes (memcmp minLen a b) a.length b.length

theorem sliceCompare_eq_threeWay (a b : Bytes) : sliceCompare a b = threeWay a b := by
  induction a generalizing b with
  | nil => cases b <;> simp [sliceCompare, compareSizes, memcmp, threeWay]
  | cons x xs ih =>
    cases b with
    | nil => simp [sliceCompare, compareSizes, memcmp, threeWay]
    | cons y ys =>
      have hmin : (if (x :: xs).length < (y :: ys).length then (x :: xs).length
          else (y :: ys).length) =
          (if xs.length < ys.length then xs.length else ys.length) + 1 := by
        simp only [List.length_cons]; split_ifs <;> omega
      have ih := ih ys
      simp only [sliceCompare, compareSizes, hmin, memcmp] at ih ⊢
      -- `memcmp` decides at the first byte that differs; the lengths matter only without one.
      by_cases hxy : x = y
      · subst hxy
        simp only [↓reduceIte, List.length_cons, add_lt_add_iff_right, gt_iff_lt]
        have hcons : threeWay (x :: xs) (x :: ys) = threeWay xs ys := by
          unfold threeWay
          congr 1 <;> simp
        rw [hcons]
        exact ih
      · have hne : x.toNat ≠ y.toNat := fun h => hxy (UInt8.toNat_inj.1 h)
        simp only [hxy, ↓reduceIte, threeWay, List.cons_lt_cons_iff, false_and, or_false,
          List.cons.injEq, UInt8.lt_iff_toNat_lt]
        split_ifs <;> omega

/-- The first string has the smaller byte at the first place where the two differ. -/
def BelowAtDifference (m u : Bytes) : Prop :=
  ∃ p x s y t, m = p ++ x :: s ∧ u = p ++ y :: t ∧ x < y

/-- `memcmp` with as many bytes as `u` has finds such a place, or it finds none and gives zero. -/
theorem memcmp_pos_iff (m u : Bytes) : 0 < memcmp u.length u m ↔ BelowAtDifference m u := by
  induction u generalizing m with
  | nil => simp [memcmp, BelowAtDifference]
  | cons y u ih =>
    cases m with
    | nil => simp [memcmp, BelowAtDifference]
    | cons x m =>
      by_cases hxy : y = x
      · subst hxy
        have hcons : memcmp (y :: u).length (y :: u) (y :: m) = memcmp u.length u m := by
          simp [memcmp]
        rw [hcons, ih]
        constructor
        · rintro ⟨p, a, s, b, t, rfl, rfl, hlt⟩
          exact ⟨y :: p, a, s, b, t, rfl, rfl, hlt⟩
        · rintro ⟨p, a, s, b, t, hm, hu, hlt⟩
          cases p with
          | nil =>
            obtain ⟨rfl, -⟩ := List.cons.inj hm
            obtain ⟨rfl, -⟩ := List.cons.inj hu
            exact absurd hlt (lt_irrefl _)
          | cons z p => exact ⟨p, a, s, b, t, (List.cons.inj hm).2, (List.cons.inj hu).2, hlt⟩
      · have hne : memcmp (y :: u).length (y :: u) (x :: m) = (y.toNat : ℤ) - x.toNat := by
          simp [memcmp, hxy]
        rw [hne, Int.sub_pos, Int.ofNat_lt, ← UInt8.lt_iff_toNat_lt]
        constructor
        · intro hlt
          exact ⟨[], x, m, y, u, rfl, rfl, hlt⟩
        · rintro ⟨p, a, s, b, t, hm, hu, hlt⟩
          cases p with
          | nil =>
            obtain ⟨rfl, -⟩ := List.cons.inj hm
            obtain ⟨rfl, -⟩ := List.cons.inj hu
            exact hlt
          | cons z p => exact absurd ((List.cons.inj hu).1.trans (List.cons.inj hm).1.symm) hxy

instance (m u : Bytes) : Decidable (BelowAtDifference m u) :=
  decidable_of_iff _ (memcmp_pos_iff m u)

/-- A larger string is above at the same place or at an earlier one. -/
theorem BelowAtDifference.trans_lt {m u u' : Bytes} (h : BelowAtDifference m u) (hu : u < u') :
    BelowAtDifference m u' := by
  obtain ⟨p, x, s, y, t, rfl, rfl, hlt⟩ := h
  induction p generalizing u' with
  | nil =>
    cases u' with
    | nil => exact absurd hu (List.not_lt_nil _)
    | cons y' t' =>
      refine ⟨[], x, s, y', t', rfl, rfl, hlt.trans_le ?_⟩
      rcases List.cons_lt_cons_iff.1 hu with h | ⟨rfl, -⟩
      · exact h.le
      · exact le_rfl
  | cons z p ih =>
    cases u' with
    | nil => exact absurd hu (List.not_lt_nil _)
    | cons z' t' =>
      rcases List.cons_lt_cons_iff.1 hu with h | ⟨rfl, h⟩
      · exact ⟨[], z, p ++ x :: s, z', t', rfl, rfl, h⟩
      · obtain ⟨p', a, s', b, t'', hm, hu', hab⟩ := ih h
        exact ⟨z :: p', a, s', b, t'', congrArg (z :: ·) hm, congrArg (z :: ·) hu', hab⟩

/-! ### Pointers and sizes -/

/-- `class Slice`: `memory` is what stands from `data_` on, as far as it belongs to one object, and
`size` is `size_`.  A size that has wrapped around is larger than the memory. -/
structure Slice where
  memory : Bytes
  size : ℕ
deriving Repr, DecidableEq

namespace Slice

/-- The slice of a whole buffer. -/
@[coe] def ofBytes (buffer : Bytes) : Slice := ⟨buffer, buffer.length⟩

instance : Coe Bytes Slice := ⟨ofBytes⟩

@[simp] theorem size_ofBytes (b : Bytes) : (ofBytes b).size = b.length := rfl

@[simp] theorem memory_ofBytes (b : Bytes) : (ofBytes b).memory = b := rfl

@[simp] theorem ofBytes_inj {a b : Bytes} : ofBytes a = ofBytes b ↔ a = b :=
  ⟨congrArg memory, congrArg ofBytes⟩

/-- `Slice(const std::string&)`.  A zero byte stands behind the characters. -/
def ofString (s : Bytes) : Slice := ⟨s ++ [0], s.length⟩

/-- `Slice(const char*)` of `s.c_str()`: the size ends at the first zero byte, and the rest of the
string stands behind it. -/
def ofCStr (s : Bytes) : Slice := ⟨s ++ [0], (cString s).length⟩

/-- The bytes of the slice. -/
def bytes (s : Slice) : Bytes := s.memory.take s.size

@[simp] theorem bytes_ofBytes (b : Bytes) : (ofBytes b).bytes = b := List.take_length

/-- `std::string(data, size)`, which throws or reads on if the size is larger than the memory. -/
def toString (s : Slice) : Exec Bytes :=
  if s.memory.length < s.size then .error .outOfBounds else .ok s.bytes

@[simp] theorem toString_ofBytes (b : Bytes) : (ofBytes b).toString = .ok b := by
  rw [toString, if_neg (by simp), bytes_ofBytes]

/-- `Slice::Compare`.  Without a difference `memcmp` reads as many bytes as the smaller size. -/
def compare (a b : Slice) : Exec ℤ :=
  let minLen := if a.size < b.size then a.size else b.size
  let r := memcmp minLen a.memory b.memory
  if r = 0 ∧ (a.memory.length < minLen ∨ b.memory.length < minLen) then .error .outOfBounds
  else .ok (compareSizes r a.size b.size)

@[simp] theorem compare_ofBytes (a b : Bytes) :
    compare a b = .ok (sliceCompare a b) := by
  have hin : ¬ (a.length < (if a.length < b.length then a.length else b.length) ∨
      b.length < (if a.length < b.length then a.length else b.length)) := by
    split_ifs <;> omega
  exact if_neg fun h => hin h.2

/-- A whole buffer is above a larger slice where the two differ first, or not at all. -/
theorem compare_eq_one_iff_of_lt {u : Bytes} {s : Slice} (h : u.length < s.size) :
    compare u s = .ok 1 ↔ BelowAtDifference s.memory u := by
  have hmin : (if (ofBytes u).size < s.size then (ofBytes u).size else s.size) = u.length :=
    if_pos h
  simp only [compare, hmin, memory_ofBytes, lt_irrefl, false_or, ← memcmp_pos_iff]
  generalize memcmp u.length u s.memory = r
  -- without a difference the buffer is the shorter slice
  rcases lt_trichotomy r 0 with hr | rfl | hr
  · simp [compareSizes, hr, hr.ne, hr.not_gt]
  · by_cases hin : s.memory.length < u.length
    · simp [hin]
    · simp [hin, compareSizes, h]
  · simp [compareSizes, hr, hr.ne', hr.not_gt]

theorem compare_error {a b : Slice} {e : Fault} (h : a.compare b = .error e) :
    e = .outOfBounds := by
  unfold compare at h
  dsimp only at h
  generalize (if a.size < b.size then a.size else b.size) = minLen at h
  split at h
  · cases h; rfl
  · cases h

/-- Slices that compare as equal have the same size, and lie inside of their memory. -/
theorem size_of_compare {a b : Slice} (h : a.compare b = .ok 0) :
    a.size = b.size ∧ a.size ≤ a.memory.length ∧ b.size ≤ b.memory.length := by
  unfold compare at h
  dsimp only at h
  generalize hmin : (if a.size < b.size then a.size else b.size) = minLen at h
  split at h
  · cases h
  · rename_i hin
    have h := Except.ok.inj h
    unfold compareSizes at h
    split_ifs at h hmin <;> omega

end Slice

end KoishiDB
