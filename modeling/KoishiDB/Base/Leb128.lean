import KoishiDB.Base.Bytes

/-!
# Base-128 numbers

A number in base 128, lowest digit first, one digit in each byte; every byte but the last has
its highest bit set.  `encode n v` emits at most `n` digits, which is all of `v` when
`v < 128 ^ n`.

A program writes the digits in a loop into a buffer: `write group n v`, with `n` bytes of the buffer
left, and with its own way `group` to put the highest bit on the lowest digit.  For a buffer that is
long enough the loop writes `encode n v` (`write_eq`).
-/

namespace KoishiDB

namespace Leb128

/-- The digits of `v`, at most `n` of them. -/
def encode : ℕ → ℕ → Bytes
  | 0, _ => []
  | n + 1, v => if v < 128 then [UInt8.ofNat v] else UInt8.ofNat (v % 128 + 128) :: encode n (v / 128)

theorem encode_ne_nil {n v : ℕ} (hn : 0 < n) : encode n v ≠ [] := by
  obtain ⟨n, rfl⟩ := Nat.exists_eq_succ_of_ne_zero hn.ne'
  simp only [encode]
  split <;> simp

theorem length_encode_le (n v : ℕ) : (encode n v).length ≤ n := by
  induction n generalizing v with
  | zero => rfl
  | succ n ih =>
    simp only [encode]
    split
    · simp
    · simpa using ih (v / 128)

theorem length_encode_pos {n v : ℕ} (hn : 0 < n) : 0 < (encode n v).length :=
  List.length_pos_of_ne_nil (encode_ne_nil hn)

theorem length_encode_mono {n v w : ℕ} (h : v ≤ w) :
    (encode n v).length ≤ (encode n w).length := by
  induction n generalizing v w with
  | zero => rfl
  | succ n ih =>
    have hdiv := ih (Nat.div_le_div_right h : v / 128 ≤ w / 128)
    simp only [encode]
    split_ifs with hv hw
    · exact le_rfl
    · simp
    · omega
    · simpa using hdiv

theorem encode_of_lt {n v : ℕ} (h : v < 128) : encode (n + 1) v = [UInt8.ofNat v] := if_pos h

theorem encode_of_not_lt {n v : ℕ} (h : ¬ v < 128) :
    encode (n + 1) v = UInt8.ofNat (v % 128 + 128) :: encode n (v / 128) := if_neg h

/-- Induction over the digits of a number that has at most `n` of them. -/
@[elab_as_elim] theorem digits_induction {motive : ℕ → ℕ → Prop}
    (last : ∀ n v, v < 128 → motive (n + 1) v)
    (more : ∀ n v, ¬ v < 128 → motive n (v / 128) → motive (n + 1) v) (n v : ℕ) (hn : 0 < n)
    (hv : v < 128 ^ n) : motive n v := by
  induction n generalizing v with
  | zero => cases hn
  | succ n ih =>
    by_cases h : v < 128
    · exact last n v h
    · have hdiv : v / 128 < 128 ^ n :=
        Nat.div_lt_of_lt_mul (by rwa [Nat.pow_succ, Nat.mul_comm] at hv)
      have hpos : 0 < n := by
        rcases Nat.eq_zero_or_pos n with rfl | hpos
        · rw [Nat.pow_zero] at hdiv
          omega
        · exact hpos
      exact more n v h (ih (v / 128) hpos hdiv)

/-- Only the number zero has a zero byte. -/
theorem zero_notMem_encode {n v : ℕ} (hv : 0 < v) : 0 ∉ encode n v := by
  have hne : ∀ {d : ℕ}, 0 < d → d < 256 → (0 : UInt8) ≠ UInt8.ofNat d := by
    intro d hpos hlt h0
    have := congrArg UInt8.toNat h0
    rw [toNat_ofNat hlt, UInt8.toNat_zero] at this
    omega
  induction n generalizing v with
  | zero => simp [encode]
  | succ n ih =>
    by_cases h : v < 128
    · rw [encode_of_lt h, List.mem_singleton]
      exact hne hv (by omega)
    · rw [encode_of_not_lt h, List.mem_cons, not_or]
      exact ⟨hne (by omega) (by omega), ih (by omega)⟩

/-- More room than needed makes no difference. -/
theorem encode_eq_of_le {n k v : ℕ} (hn : 0 < n) (hv : v < 128 ^ n) (h : n ≤ k) :
    encode k v = encode n v := by
  suffices hall : ∀ k, n ≤ k → encode k v = encode n v from hall k h
  refine digits_induction ?_ ?_ n v hn hv
  · intro n v hlt k h
    obtain ⟨k, rfl⟩ := Nat.exists_eq_succ_of_ne_zero (show k ≠ 0 by omega)
    rw [encode_of_lt hlt, encode_of_lt hlt]
  · intro n v hge ih k h
    obtain ⟨k, rfl⟩ := Nat.exists_eq_succ_of_ne_zero (show k ≠ 0 by omega)
    rw [encode_of_not_lt hge, encode_of_not_lt hge, ih k (by omega)]

/-- All digits in front of the last one have the highest bit set. -/
theorem le_of_mem_take_encode {n k v : ℕ} (hk : k < (encode n v).length) {b : UInt8}
    (hb : b ∈ (encode n v).take k) : 128 ≤ b.toNat := by
  induction n generalizing k v with
  | zero => cases hk
  | succ n ih =>
    by_cases h : v < 128
    · rw [encode_of_lt h] at hk hb
      obtain rfl : k = 0 := by simpa using hk
      cases hb
    · rw [encode_of_not_lt h] at hk hb
      cases k with
      | zero => cases hb
      | succ k =>
        rcases List.mem_cons.1 hb with rfl | hb
        · rw [toNat_ofNat (by omega)]
          omega
        · exact ih (by simpa using hk) hb

/-! ### Writing into a buffer -/

/-- The loop that writes the digits of `v`, with `room` bytes of the buffer left: the bytes
written. -/
def write (group : ℕ → UInt8) : ℕ → ℕ → Exec Bytes
  | 0, _ => .error .outOfBounds
  | room + 1, v =>
    if v < 128 then return [UInt8.ofNat v]
    else do
      let bytes ← write group room (v >>> 7)
      return group v :: bytes

theorem write_eq {group : ℕ → UInt8} (hgroup : ∀ v, group v = UInt8.ofNat (v % 128 + 128))
    {room v : ℕ} (hroom : 0 < room) (hv : v < 128 ^ room) :
    write group room v = .ok (encode room v) := by
  refine digits_induction ?_ ?_ room v hroom hv
  · intro room v hlt
    rw [write, if_pos hlt, encode_of_lt hlt]
    rfl
  · intro room v hge ih
    rw [write, if_neg hge, encode_of_not_lt hge, Nat.shiftRight_eq_div_pow, ih, hgroup]
    rfl

end Leb128

end KoishiDB
