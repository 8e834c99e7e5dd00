import KoishiDB.Base.Exec
import Mathlib.Data.List.Lex
import Mathlib.Data.List.TakeWhile
import Mathlib.Tactic.Linarith

/-!
# Byte strings

Byte strings are lists of `UInt8`, ordered lexicographically with the bytes taken as unsigned
numbers (a proper prefix comes first).  `byteAt` reads one of the bytes and faults outside of them.
`cString` is what a reader of a zero-terminated string sees of a byte string, and `leBytes n v` is
the number `v` in `n` bytes, lowest byte first.
-/

namespace KoishiDB

/-- A byte string. -/
abbrev Bytes := List UInt8

instance instLinearOrderUInt8 : LinearOrder UInt8 where
  le_refl := UInt8.le_refl
  le_trans _ _ _ := UInt8.le_trans
  le_antisymm _ _ := UInt8.le_antisymm
  le_total := UInt8.le_total
  lt_iff_le_not_ge a b := by
    rw [UInt8.lt_iff_toNat_lt, UInt8.le_iff_toNat_le, UInt8.le_iff_toNat_le]
    omega
  toDecidableLE _ _ := inferInstance
  toDecidableEq := inferInstance
  toDecidableLT _ _ := inferInstance
  min_def _ _ := rfl
  max_def _ _ := rfl

theorem toNat_ofNat {n : ℕ} (h : n < 256) : (UInt8.ofNat n).toNat = n := by
  rw [UInt8.toNat_ofNat']; omega

/-- Reads the byte at `i`. -/
def byteAt (buf : Bytes) (i : ℕ) : Exec UInt8 :=
  match buf[i]? with
  | some b => .ok b
  | none => .error .outOfBounds

theorem byteAt_of_lt {buf : Bytes} {i : ℕ} (h : i < buf.length) :
    byteAt buf i = .ok (buf.getD i 0) := by
  rw [byteAt, List.getD_eq_getElem?_getD, List.getElem?_eq_getElem h]
  rfl

/-- A byte at a distance from a position, when what stands behind the position is known. -/
theorem byteAt_add {buf tail : Bytes} {p i : ℕ} {b : UInt8} (h : buf.drop p = tail)
    (hb : tail[i]? = some b) : byteAt buf (p + i) = .ok b := by
  rw [← h, List.getElem?_drop] at hb
  rw [byteAt, hb]

theorem byteAt_of_drop {buf tail : Bytes} {p : ℕ} {b : UInt8} (h : buf.drop p = b :: tail) :
    byteAt buf p = .ok b :=
  byteAt_add h List.getElem?_cons_zero

/-! ### Zero-terminated strings -/

/-- The bytes in front of the first zero byte: what `strlen` and its users see. -/
def cString (s : Bytes) : Bytes := s.takeWhile (· ≠ 0)

theorem cString_eq_self {s : Bytes} : cString s = s ↔ 0 ∉ s := by
  simp only [cString, List.takeWhile_eq_self_iff, decide_eq_true_eq]
  exact ⟨fun h h0 => h 0 h0 rfl, fun h x hx hx0 => h (hx0 ▸ hx)⟩

theorem cString_isPrefix (s : Bytes) : cString s <+: s := List.takeWhile_prefix _

theorem length_cString_le (s : Bytes) : (cString s).length ≤ s.length :=
  (cString_isPrefix s).length_le

/-- A zero-terminated string has `n` bytes if none of the first `n` is zero. -/
theorem le_length_cString_iff {s : Bytes} {n : ℕ} (h : n ≤ s.length) :
    n ≤ (cString s).length ↔ 0 ∉ s.take n := by
  induction s generalizing n with
  | nil =>
    obtain rfl : n = 0 := by simpa using h
    simp
  | cons x s ih =>
    cases n with
    | zero => simp
    | succ n =>
      have ih := ih (n := n) (by simpa using h)
      unfold cString at ih ⊢
      rw [List.takeWhile_cons, List.take_succ_cons, List.mem_cons, not_or]
      by_cases hx : x = 0
      · simp [hx]
      · simpa [hx, Ne.symm hx] using ih

theorem cString_append {s t : Bytes} (h : 0 ∉ s) : cString (s ++ t) = s ++ cString t := by
  rw [cString, List.takeWhile_append_of_pos]
  · rfl
  · intro x hx
    simpa using fun h0 : x = 0 => h (h0 ▸ hx)

@[simp] theorem cString_replicate_zero (n : ℕ) : cString (List.replicate n 0) = [] := by
  cases n <;> simp [cString, List.replicate_succ]

/-! ### Fixed-width little-endian numbers -/

/-- The lowest `n` bytes of `v`, lowest first. -/
def leBytes : ℕ → ℕ → Bytes
  | 0, _ => []
  | n + 1, v => UInt8.ofNat (v % 256) :: leBytes n (v / 256)

/-- The number whose bytes, lowest first, are given. -/
def leNat : Bytes → ℕ
  | [] => 0
  | b :: bs => b.toNat + 256 * leNat bs

@[simp] theorem length_leBytes (n v : ℕ) : (leBytes n v).length = n := by
  induction n generalizing v with
  | zero => rfl
  | succ n ih => simp [leBytes, ih]

theorem leNat_leBytes (n v : ℕ) : leNat (leBytes n v) = v % 256 ^ n := by
  induction n generalizing v with
  | zero => simp [leBytes, leNat, Nat.mod_one]
  | succ n ih =>
    rw [leBytes, leNat, ih, toNat_ofNat (by omega), Nat.pow_succ', Nat.mod_mul]

theorem leNat_concat (bs : Bytes) (b : UInt8) :
    leNat (bs ++ [b]) = leNat bs + 256 ^ bs.length * b.toNat := by
  induction bs with
  | nil => simp [leNat]
  | cons c bs ih =>
    rw [List.cons_append, leNat, ih, leNat, List.length_cons, Nat.pow_succ', Nat.mul_add,
      Nat.mul_assoc, Nat.add_assoc]

theorem leNat_lt (bs : Bytes) : leNat bs < 256 ^ bs.length := by
  induction bs with
  | nil => simp [leNat]
  | cons b bs ih =>
    have hb := b.toNat_lt
    rw [leNat, List.length_cons, Nat.pow_succ']
    omega

end KoishiDB
