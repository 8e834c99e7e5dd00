import KoishiDB.Common
import KoishiDB.Base.Leb128

/-!
# Number and string encodings

The functions of `util/encode.cc` and the slice operations they use.  A pointer into a buffer is
the list of the bytes from there to the end of the slice; reading past that end is a fault.  The
decoders return the rest of the input next to the value, as the source advances the slice.

* `getVarint32_encode`, `getVarint64_encode` : decoding gives back what was encoded and leaves
  what follows it.
-/

namespace KoishiDB

/-- `Slice::Advance`. -/
def advance (s : Bytes) (n : ℕ) : Exec Bytes := do
  Exec.require (n ≤ s.length) "n <= size_"
  return s.drop n

/-- `*(ptr++)`. -/
def readByte : Bytes → Exec (ℕ × Bytes)
  | [] => .error .outOfBounds
  | b :: bs => .ok (b.toNat, bs)

/-- `EncodeVarint32`. -/
def encodeVarint32 (value : ℕ) : Bytes := Leb128.encode 5 (u32 value)

/-- `EncodeVarint64`. -/
def encodeVarint64 (v : ℕ) : Bytes := Leb128.encode 10 (u64 v)

/-- `PutVarint32`. -/
def putVarint32 (value : ℕ) (dst : Bytes) : Bytes := dst ++ encodeVarint32 value

/-- `PutVarint64`. -/
def putVarint64 (dst : Bytes) (v : ℕ) : Bytes := dst ++ encodeVarint64 v

/-- `DecodeVarint32`, unrolled as in the source; the last group may overflow 32 bits. -/
def decodeVarint32 (p : Bytes) : Exec (ℕ × Bytes) := do
  let (part0, p) ← readByte p
  if part0 < 0x80 then return (part0, p)
  let part0 := part0 - 0x80
  let (part1, p) ← readByte p
  let part0 := part0 + part1 <<< 7
  if part1 < 0x80 then return (part0, p)
  let part0 := part0 - 0x80 <<< 7
  let (part2, p) ← readByte p
  let part0 := part0 + part2 <<< 14
  if part2 < 0x80 then return (part0, p)
  let part0 := part0 - 0x80 <<< 14
  let (part3, p) ← readByte p
  let part0 := part0 + part3 <<< 21
  if part3 < 0x80 then return (part0, p)
  let part0 := part0 - 0x80 <<< 21
  let (part4, p) ← readByte p
  return (u32 (part0 + part4 <<< 28), p)

/-- `GetVarint32`. -/
def getVarint32 (dst : Bytes) : Exec (ℕ × Bytes) := decodeVarint32 dst

/-- The loop of `GetVarint64Ptr`, with the number of values of `shift` still allowed. -/
def getVarint64Loop : ℕ → ℕ → ℕ → Bytes → Option (ℕ × Bytes)
  | 0, _, _, _ => none
  | _ + 1, _, _, [] => none
  | n + 1, shift, result, b :: p =>
    let byte := b.toNat
    if byte &&& 128 ≠ 0 then
      getVarint64Loop n (shift + 7) (result ||| u64 ((byte &&& 127) <<< shift)) p
    else
      some (result ||| u64 (byte <<< shift), p)

/-- `GetVarint64Ptr`: `shift` takes the ten values from 0 to 63. -/
def getVarint64Ptr (p : Bytes) : Option (ℕ × Bytes) := getVarint64Loop 10 0 0 p

/-- `GetVarint64`; `none` is the result `false`, which leaves the input as it is. -/
def getVarint64 (input : Bytes) : Option (ℕ × Bytes) := getVarint64Ptr input

/-- `GetFixedBytes`. -/
def getFixedBytes (dst : Bytes) (n : ℕ) : Exec (Bytes × Bytes) := do
  Exec.require (n ≤ dst.length) "n <= dst->size()"
  return (dst.take n, dst.drop n)

/-- `PutLengthPrefixedSlice`. -/
def putLengthPrefixedSlice (dst value : Bytes) : Bytes := putVarint32 value.length dst ++ value

/-- `GetLengthPrefixedSlice`: the string read and the rest of the source. -/
def getLengthPrefixedSlice (src : Bytes) : Exec (Bytes × Bytes) := do
  let (len, src) ← getVarint32 src
  -- `append(src->data(), len)` reads before `Advance` checks
  if src.length < len then throw .outOfBounds
  let rest ← advance src len
  return (src.take len, rest)

/-- `DecodeFixed32`, for a caller that has made sure of four bytes. -/
def decodeFixed32 (p : Bytes) : ℕ := leNat (p.take 4)

/-- `DecodeFixed64`, for a caller that has made sure of eight bytes. -/
def decodeFixed64 (p : Bytes) : ℕ := leNat (p.take 8)

/-- The bytes that `EncodeFixed32` and `PutFixed32` write. -/
def encodeFixed32 (value : ℕ) : Bytes := leBytes 4 value

/-- The bytes that `EncodeFixed64` and `PutFixed64` write. -/
def encodeFixed64 (value : ℕ) : Bytes := leBytes 8 value

/-! ### Varints -/

theorem length_encodeVarint32_le (v : ℕ) : (encodeVarint32 v).length ≤ 5 :=
  Leb128.length_encode_le _ _

theorem length_encodeVarint32_mono {v w : ℕ} (h : v ≤ w) (hw : w < 2 ^ 32) :
    (encodeVarint32 v).length ≤ (encodeVarint32 w).length := by
  unfold encodeVarint32
  rw [u32_of_lt hw, u32_of_lt (h.trans_lt hw)]
  exact Leb128.length_encode_mono h

theorem length_encodeVarint32_pos (v : ℕ) : 0 < (encodeVarint32 v).length :=
  Leb128.length_encode_pos (by decide)

theorem length_encodeVarint64_le (v : ℕ) : (encodeVarint64 v).length ≤ 10 :=
  Leb128.length_encode_le _ _

theorem zero_notMem_encodeVarint32 {v : ℕ} (h0 : 0 < v) (h : v < 2 ^ 32) :
    0 ∉ encodeVarint32 v := by
  rw [encodeVarint32, u32_of_lt h]
  exact Leb128.zero_notMem_encode h0

theorem zero_notMem_encodeVarint64 {v : ℕ} (h0 : 0 < v) (h : v < 2 ^ 64) :
    0 ∉ encodeVarint64 v := by
  rw [encodeVarint64, u64_of_lt h]
  exact Leb128.zero_notMem_encode h0

@[simp] theorem readByte_ofNat {n : ℕ} (h : n < 256) (rest : Bytes) :
    readByte (UInt8.ofNat n :: rest) = .ok (n, rest) := by
  rw [readByte, toNat_ofNat h]

/-- `GetVarint32` inverts `PutVarint32`, whatever follows. -/
theorem getVarint32_encode {v : ℕ} (h : v < 2 ^ 32) (rest : Bytes) :
    getVarint32 (encodeVarint32 v ++ rest) = .ok (v, rest) := by
  rw [getVarint32, encodeVarint32, u32_of_lt h]
  have hd : ∀ x : ℕ, ¬ x % 128 + 128 < 0x80 := by omega
  simp only [decodeVarint32, Leb128.encode, Nat.shiftLeft_eq]
  -- one case for each number of groups; inside a case both sides are linear in the digits
  split_ifs <;>
    simp (disch := omega) only [List.cons_append, List.nil_append, readByte_ofNat, Exec.ok_bind,
      Exec.pure_eq, ↓reduceIte, *] <;>
    simp only [Except.ok.injEq, Prod.mk.injEq, and_true, u32] <;> omega

theorem readByte_bounds {p q : Bytes} {n : ℕ} (h : readByte p = .ok (n, q)) :
    n < 256 ∧ q.length + 1 = p.length := by
  cases p with
  | nil => cases h
  | cons b bs => cases h; exact ⟨b.toNat_lt, rfl⟩

/-- What `GetVarint32` reads has 32 bits and takes at least one byte, whatever the input. -/
theorem getVarint32_bounds {p q : Bytes} {n : ℕ} (h : getVarint32 p = .ok (n, q)) :
    n < 2 ^ 32 ∧ q.length < p.length := by
  unfold getVarint32 decodeVarint32 at h
  obtain ⟨⟨part0, p0⟩, h0, h⟩ := Exec.bind_eq_ok.1 h
  have := readByte_bounds h0
  simp only [Nat.shiftLeft_eq] at h
  split at h
  · cases h; omega
  obtain ⟨⟨part1, p1⟩, h1, h⟩ := Exec.bind_eq_ok.1 h
  have := readByte_bounds h1
  simp only at h
  split at h
  · cases h; omega
  obtain ⟨⟨part2, p2⟩, h2, h⟩ := Exec.bind_eq_ok.1 h
  have := readByte_bounds h2
  simp only at h
  split at h
  · cases h; omega
  obtain ⟨⟨part3, p3⟩, h3, h⟩ := Exec.bind_eq_ok.1 h
  have := readByte_bounds h3
  simp only at h
  split at h
  · cases h; omega
  obtain ⟨⟨part4, p4⟩, h4, h⟩ := Exec.bind_eq_ok.1 h
  have := readByte_bounds h4
  cases h
  refine ⟨Nat.mod_lt _ (by decide), ?_⟩
  dsimp only
  omega

theorem readByte_error {p : Bytes} {e : Fault} (h : readByte p = .error e) : e = .outOfBounds := by
  cases p with
  | nil => cases h; rfl
  | cons b bs => cases h

/-- All that can go wrong in `GetVarint32` is a read behind the end. -/
theorem getVarint32_error {p : Bytes} {e : Fault} (h : getVarint32 p = .error e) :
    e = .outOfBounds := by
  unfold getVarint32 decodeVarint32 at h
  rcases Exec.bind_eq_error.1 h with h | ⟨⟨part0, p0⟩, -, h⟩
  · exact readByte_error h
  simp only [Nat.shiftLeft_eq] at h
  split at h
  · cases h
  rcases Exec.bind_eq_error.1 h with h | ⟨⟨part1, p1⟩, -, h⟩
  · exact readByte_error h
  simp only at h
  split at h
  · cases h
  rcases Exec.bind_eq_error.1 h with h | ⟨⟨part2, p2⟩, -, h⟩
  · exact readByte_error h
  simp only at h
  split at h
  · cases h
  rcases Exec.bind_eq_error.1 h with h | ⟨⟨part3, p3⟩, -, h⟩
  · exact readByte_error h
  simp only at h
  split at h
  · cases h
  rcases Exec.bind_eq_error.1 h with h | ⟨⟨part4, p4⟩, -, h⟩
  · exact readByte_error h
  · cases h

theorem and_128_ne_zero_iff {b : ℕ} (h : b < 256) : b &&& 128 ≠ 0 ↔ 128 ≤ b := by
  revert b; decide +kernel

theorem and_128_ne_zero {b : ℕ} (h : b < 128) : (b + 128) &&& 128 ≠ 0 :=
  (and_128_ne_zero_iff (by omega)).2 (by omega)

theorem and_128_eq_zero {b : ℕ} (h : b < 128) : b &&& 128 = 0 := by
  revert b; decide

theorem and_127 {b : ℕ} (h : b < 128) : (b + 128) &&& 127 = b := by
  revert b; decide

theorem or_shiftLeft_eq_add {a b i : ℕ} (h : a < 2 ^ i) : a ||| b <<< i = a + b * 2 ^ i := by
  rw [Nat.or_comm, ← Nat.shiftLeft_add_eq_or_of_lt h, Nat.shiftLeft_eq, Nat.add_comm]

theorem or_shiftLeft {result digit shift : ℕ} (hr : result < 2 ^ shift)
    (hd : digit * 2 ^ shift < 2 ^ 64) :
    result ||| u64 (digit <<< shift) = result + digit * 2 ^ shift := by
  have he : u64 (digit <<< shift) = digit <<< shift := u64_of_lt (by rwa [Nat.shiftLeft_eq])
  rw [he, or_shiftLeft_eq_add hr]

/-- The loop of `GetVarint64Ptr` adds the digits to what it has collected below `2 ^ shift`. -/
theorem getVarint64Loop_encode {n shift result v : ℕ} (rest : Bytes) (hn : 0 < n)
    (hv : v < 128 ^ n) (hr : result < 2 ^ shift) (hb : v * 2 ^ shift < 2 ^ 64) :
    getVarint64Loop n shift result (Leb128.encode n v ++ rest) =
      some (result + v * 2 ^ shift, rest) := by
  suffices hall : ∀ shift result, result < 2 ^ shift → v * 2 ^ shift < 2 ^ 64 →
      getVarint64Loop n shift result (Leb128.encode n v ++ rest) =
        some (result + v * 2 ^ shift, rest) from hall shift result hr hb
  refine Leb128.digits_induction ?_ ?_ n v hn hv
  · intro n v h shift result hr hb
    simp only [Leb128.encode_of_lt h, List.cons_append, List.nil_append, getVarint64Loop,
      toNat_ofNat (show v < 256 by omega), and_128_eq_zero h, ne_eq, not_true_eq_false,
      ↓reduceIte, or_shiftLeft hr hb]
  · intro n v h ih shift result hr hb
    have hlt : v % 128 < 128 := Nat.mod_lt _ (by decide)
    have hle : v % 128 * 2 ^ shift ≤ v * 2 ^ shift := Nat.mul_le_mul_right _ (Nat.mod_le _ _)
    have h2 : 2 ^ (shift + 7) = 128 * 2 ^ shift := by rw [Nat.pow_add]; omega
    have hsplit : v % 128 * 2 ^ shift + v / 128 * 2 ^ (shift + 7) = v * 2 ^ shift := by
      rw [h2, ← Nat.mul_assoc, ← Nat.add_mul, Nat.mul_comm (v / 128), Nat.mod_add_div]
    have hr' : result + v % 128 * 2 ^ shift < 2 ^ (shift + 7) := by
      have : v % 128 * 2 ^ shift ≤ 127 * 2 ^ shift := Nat.mul_le_mul_right _ (by omega)
      omega
    simp only [Leb128.encode_of_not_lt h, List.cons_append, getVarint64Loop,
      toNat_ofNat (show v % 128 + 128 < 256 by omega), and_128_ne_zero hlt, and_127 hlt, ne_eq,
      not_false_eq_true, ↓reduceIte, or_shiftLeft hr (hle.trans_lt hb)]
    rw [ih _ _ hr' (by omega)]
    simp only [Option.some.injEq, Prod.mk.injEq, and_true]
    omega

/-- `GetVarint64` inverts `PutVarint64`, whatever follows. -/
theorem getVarint64_encode {v : ℕ} (h : v < 2 ^ 64) (rest : Bytes) :
    getVarint64 (encodeVarint64 v ++ rest) = some (v, rest) := by
  rw [getVarint64, getVarint64Ptr, encodeVarint64, u64_of_lt h,
    getVarint64Loop_encode rest (by decide) (by omega) (by decide) (by omega)]
  simp

/-! ### Strings with a length in front -/

theorem advance_append (s rest : Bytes) : advance (s ++ rest) s.length = .ok rest := by
  simp [advance, Exec.require]

theorem getLengthPrefixedSlice_put {s : Bytes} (h : s.length < 2 ^ 32) (rest : Bytes) :
    getLengthPrefixedSlice (encodeVarint32 s.length ++ s ++ rest) = .ok (s, rest) := by
  rw [getLengthPrefixedSlice, List.append_assoc, getVarint32_encode h]
  simp [advance_append]

/-- The slice and the rest stand behind a length of at least one byte. -/
theorem getLengthPrefixedSlice_length {src s rest : Bytes}
    (h : getLengthPrefixedSlice src = .ok (s, rest)) : s.length + rest.length < src.length := by
  obtain ⟨⟨len, src'⟩, hlen, h⟩ := Exec.bind_eq_ok.1 h
  have hlt := (getVarint32_bounds hlen).2
  dsimp only at h
  split at h
  · cases h
  · obtain ⟨_, hadv, h⟩ := Exec.bind_eq_ok.1 h
    obtain ⟨_, -, hadv⟩ := Exec.bind_eq_ok.1 hadv
    cases hadv
    cases h
    rw [List.length_take, List.length_drop]
    omega

theorem decodeFixed32_encode {v : ℕ} (h : v < 2 ^ 32) (rest : Bytes) :
    decodeFixed32 (encodeFixed32 v ++ rest) = v := by
  have : (leBytes 4 v ++ rest).take 4 = leBytes 4 v := List.take_left' (by simp)
  rw [decodeFixed32, encodeFixed32, this, leNat_leBytes]
  exact Nat.mod_eq_of_lt (by omega)

theorem decodeFixed32_lt (p : Bytes) : decodeFixed32 p < 2 ^ 32 := by
  have hlt := leNat_lt (p.take 4)
  have hle : 256 ^ (p.take 4).length ≤ 256 ^ 4 :=
    Nat.pow_le_pow_right (by decide) (List.length_take_le _ _)
  exact hlt.trans_le hle

theorem decodeFixed64_encode {v : ℕ} (h : v < 2 ^ 64) (rest : Bytes) :
    decodeFixed64 (encodeFixed64 v ++ rest) = v := by
  have : (leBytes 8 v ++ rest).take 8 = leBytes 8 v := List.take_left' (by simp)
  rw [decodeFixed64, encodeFixed64, this, leNat_leBytes]
  exact Nat.mod_eq_of_lt (by omega)

@[simp] theorem length_encodeFixed32 (v : ℕ) : (encodeFixed32 v).length = 4 := length_leBytes 4 v

@[simp] theorem length_encodeFixed64 (v : ℕ) : (encodeFixed64 v).length = 8 := length_leBytes 8 v

end KoishiDB
