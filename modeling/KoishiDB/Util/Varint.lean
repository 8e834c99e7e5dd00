import KoishiDB.Util.Encode
import KoishiDB.Base.Codec

/-!
# Varints in buffers

The varint functions of `util/encode.cc` once more, as the source writes them: the encoders are
loops that store into a buffer of fixed size, and `GetVarint64Ptr` is a loop over pointers that
stops at a limit.  A pointer is a position in its buffer; a store or a load outside the buffer is a
fault, and a loop that is cut off by its bound faults as well.

The loops compute the functions of `KoishiDB.Util.Encode` (`Buffer.encodeVarint64_eq`,
`Buffer.encodeVarint32_eq`, `Buffer.getVarint64_eq`), so none of these faults occurs.

* `Buffer.varint64_codec` : `PutVarint64` and `GetVarint64`, and what `GetVarint64` does with an
  arbitrary input.
* `Buffer.varint32_codec` : lists of numbers through `PutVarint32` and `GetVarint32`, the lengths,
  and the agreement of the two encoders.
* `delimits_getVarint64` : a varint that is cut off is not read.
-/

namespace KoishiDB

namespace Buffer

/-! ### Stores -/

/-- `EncodeVarint64` into the `char buf[10]` of `PutVarint64`.  Converting `v | B` to `uint8_t`
keeps the lowest eight bits of it. -/
def encodeVarint64 (v : ℕ) : Exec Bytes :=
  Leb128.write (fun v => UInt8.ofNat (v ||| 128)) 10 (u64 v)

/-- `PutVarint64`. -/
def putVarint64 (dst : Bytes) (v : ℕ) : Exec Bytes := do
  let buf ← encodeVarint64 v
  return dst ++ buf

/-- `EncodeVarint32` into the `char buf[5]` of `PutVarint32`. -/
def encodeVarint32 (value : ℕ) : Exec Bytes :=
  Leb128.write (fun value => UInt8.ofNat ((value &&& 0x7F) ||| 128)) 5 (u32 value)

/-- `PutVarint32`. -/
def putVarint32 (value : ℕ) (dst : Bytes) : Exec Bytes := do
  let buf ← encodeVarint32 value
  return dst ++ buf

/-- The loop of `EncodeVarint32Length`, cut off after `fuel` rounds. -/
def lengthLoop : ℕ → ℕ → ℕ → Exec ℕ
  | 0, _, _ => .error .diverges
  | fuel + 1, size, value =>
    let size := size + 1
    if value < 128 then return size else lengthLoop fuel size (value >>> 7)

/-- `EncodeVarint32Length`: five groups hold all 32 bits. -/
def encodeVarint32Length (value : ℕ) : Exec ℕ := lengthLoop 5 0 (u32 value)

theorem ofNat_or_128 (v : ℕ) : UInt8.ofNat (v ||| 128) = UInt8.ofNat (v % 128 + 128) := by
  have hor : ∀ x < 256, x ||| 128 = x % 128 + 128 := by decide +kernel
  have hmod : (v ||| 128) % 2 ^ 8 = v % 2 ^ 8 ||| 128 := Nat.or_mod_two_pow
  apply UInt8.toNat_inj.1
  rw [UInt8.toNat_ofNat', hmod, hor (v % 2 ^ 8) (Nat.mod_lt _ (by decide)),
    toNat_ofNat (by omega)]
  omega

theorem ofNat_and_or_128 (v : ℕ) :
    UInt8.ofNat ((v &&& 0x7F) ||| 128) = UInt8.ofNat (v % 128 + 128) := by
  have hand : v &&& 0x7F = v % 128 := Nat.and_two_pow_sub_one_eq_mod v 7
  rw [hand, ofNat_or_128, Nat.mod_mod]

/-- The loop of `EncodeVarint64` stays inside its buffer and writes the varint. -/
theorem encodeVarint64_eq (v : ℕ) : encodeVarint64 v = .ok (KoishiDB.encodeVarint64 v) := by
  refine Leb128.write_eq ofNat_or_128 (by decide) ?_
  have hlt : u64 v < 2 ^ 64 := Nat.mod_lt _ (by decide)
  omega

/-- The loop of `EncodeVarint32` stays inside its buffer and writes the varint. -/
theorem encodeVarint32_eq (value : ℕ) :
    encodeVarint32 value = .ok (KoishiDB.encodeVarint32 value) := by
  refine Leb128.write_eq ofNat_and_or_128 (by decide) ?_
  have hlt : u32 value < 2 ^ 32 := Nat.mod_lt _ (by decide)
  omega

theorem putVarint64_eq (dst : Bytes) (v : ℕ) :
    putVarint64 dst v = .ok (KoishiDB.putVarint64 dst v) := by
  rw [putVarint64, encodeVarint64_eq]
  rfl

theorem putVarint32_eq (value : ℕ) (dst : Bytes) :
    putVarint32 value dst = .ok (KoishiDB.putVarint32 value dst) := by
  rw [putVarint32, encodeVarint32_eq]
  rfl

/-- The loop of `EncodeVarint32Length` counts the digits. -/
theorem lengthLoop_eq {fuel value : ℕ} (hfuel : 0 < fuel) (hv : value < 128 ^ fuel) (size : ℕ) :
    lengthLoop fuel size value = .ok (size + (Leb128.encode fuel value).length) := by
  revert size
  refine Leb128.digits_induction ?_ ?_ fuel value hfuel hv
  · intro fuel value hlt size
    rw [lengthLoop, if_pos hlt, Leb128.encode_of_lt hlt]
    rfl
  · intro fuel value hge ih size
    rw [lengthLoop, if_neg hge, Leb128.encode_of_not_lt hge, Nat.shiftRight_eq_div_pow, ih,
      List.length_cons, Nat.add_assoc, Nat.add_comm 1]

theorem encodeVarint32Length_eq (value : ℕ) :
    encodeVarint32Length value = .ok (KoishiDB.encodeVarint32 value).length := by
  have hlt : u32 value < 2 ^ 32 := Nat.mod_lt _ (by decide)
  rw [encodeVarint32Length, lengthLoop_eq (by decide) (by omega), Nat.zero_add]
  rfl

/-- Numbers of 32 bits have the same digits in both encoders. -/
theorem encodeVarint32_eq_encodeVarint64 {v : ℕ} (h : v < 2 ^ 32) :
    KoishiDB.encodeVarint32 v = KoishiDB.encodeVarint64 v := by
  rw [KoishiDB.encodeVarint32, KoishiDB.encodeVarint64, u32_of_lt h, u64_of_lt (by omega)]
  exact (Leb128.encode_eq_of_le (by decide) (by omega) (by decide)).symm

/-! ### Loads -/

/-- The loop of `GetVarint64Ptr`, cut off after `fuel` rounds; `none` is the null pointer. -/
def getVarint64Loop (buf : Bytes) (limit : ℕ) : ℕ → ℕ → ℕ → ℕ → Exec (Option (ℕ × ℕ))
  | 0, _, _, _ => .error .diverges
  | fuel + 1, shift, result, p =>
    if shift ≤ 63 ∧ p < limit then do
      let byte ← byteAt buf p
      let byte := byte.toNat
      let p := p + 1
      if byte &&& 128 ≠ 0 then
        getVarint64Loop buf limit fuel (shift + 7) (result ||| u64 ((byte &&& 127) <<< shift)) p
      else return some (result ||| u64 (byte <<< shift), p)
    else return none

/-- `GetVarint64Ptr`: the value and the pointer behind it.  After ten rounds `shift` is 70. -/
def getVarint64Ptr (buf : Bytes) (p limit : ℕ) : Exec (Option (ℕ × ℕ)) :=
  getVarint64Loop buf limit 11 0 0 p

/-- `GetVarint64`: the result, and what `*value` and `*input` hold afterwards. -/
def getVarint64 (input : Bytes) (value : ℕ) : Exec (Bool × ℕ × Bytes) := do
  match ← getVarint64Ptr input 0 input.length with
  | none => return (false, value, input)
  | some (value, q) => return (true, value, input.drop q)

/-- The loop over pointers is the loop over what stands behind them. -/
theorem getVarint64Loop_eq (buf : Bytes) {n shift : ℕ} (hshift : shift + 7 * n = 70)
    (result p : ℕ) :
    (getVarint64Loop buf buf.length (n + 1) shift result p).map
        (Option.map fun x => (x.1, buf.drop x.2)) =
      .ok (KoishiDB.getVarint64Loop n shift result (buf.drop p)) := by
  induction n generalizing shift result p with
  | zero =>
    have hend : ¬ (shift ≤ 63 ∧ p < buf.length) := by omega
    rw [getVarint64Loop, if_neg hend]
    rfl
  | succ n ih =>
    rw [getVarint64Loop]
    cases hdrop : buf.drop p with
    | nil =>
      have hend : ¬ (shift ≤ 63 ∧ p < buf.length) := by
        have := List.drop_eq_nil_iff.1 hdrop
        omega
      rw [if_neg hend]
      rfl
    | cons b rest =>
      have hmore : shift ≤ 63 ∧ p < buf.length := by
        have := congrArg List.length hdrop
        rw [List.length_drop, List.length_cons] at this
        omega
      have hrest : rest = buf.drop (p + 1) := by rw [← List.tail_drop, hdrop, List.tail_cons]
      simp only [if_pos hmore, byteAt_of_drop hdrop, Exec.ok_bind, KoishiDB.getVarint64Loop, hrest]
      split
      · exact ih (by omega) _ _
      · rfl

/-- **`GetVarint64` makes no load outside its input**, ends, and computes the function on byte
strings. -/
theorem getVarint64_eq (input : Bytes) (value : ℕ) :
    getVarint64 input value = .ok (match KoishiDB.getVarint64 input with
      | none => (false, value, input)
      | some (value, rest) => (true, value, rest)) := by
  have hloop := getVarint64Loop_eq input (n := 10) rfl 0 0
  obtain ⟨r, hr, hmap⟩ := Exec.exists_of_map hloop
  rw [List.drop_zero] at hmap
  rw [getVarint64, getVarint64Ptr, hr, KoishiDB.getVarint64, KoishiDB.getVarint64Ptr, ← hmap]
  cases r <;> rfl

end Buffer

/-! ### Inputs that are not read -/

/-- Nothing is read when no byte ends the number. -/
theorem getVarint64Loop_eq_none_iff {n shift result : ℕ} {p : Bytes} :
    getVarint64Loop n shift result p = none ↔ ∀ b ∈ p.take n, 128 ≤ b.toNat := by
  induction n generalizing shift result p with
  | zero => simp [getVarint64Loop]
  | succ n ih =>
    cases p with
    | nil => simp [getVarint64Loop]
    | cons b p =>
      have hbit : b.toNat &&& 128 ≠ 0 ↔ 128 ≤ b.toNat := and_128_ne_zero_iff b.toNat_lt
      rw [getVarint64Loop, List.take_succ_cons, List.forall_mem_cons]
      by_cases h : 128 ≤ b.toNat
      · rw [if_pos (hbit.2 h), ih]
        exact (and_iff_right h).symm
      · rw [if_neg (hbit.not.2 h)]
        simp [h]

/-- `GetVarint64` returns `false` when the input ends inside a number, or when none of the first ten
bytes ends it. -/
theorem getVarint64_eq_none_iff {input : Bytes} :
    getVarint64 input = none ↔ ∀ b ∈ input.take 10, 128 ≤ b.toNat :=
  getVarint64Loop_eq_none_iff

/-- A varint is read whatever follows it, and is not read when it is cut off. -/
theorem delimits_getVarint64 {v : ℕ} (h : v < 2 ^ 64) :
    Delimits getVarint64 (encodeVarint64 v) v where
  read := getVarint64_encode h
  cut n hn := by
    rw [getVarint64_eq_none_iff]
    intro b hb
    exact Leb128.le_of_mem_take_encode hn (List.mem_of_mem_take hb)

namespace Buffer

/-! ### The codecs -/

/-- **The codec of 64-bit numbers.**  A number is appended in one to ten bytes and is read back from
them, whatever follows.  For every input `GetVarint64` returns without a load outside the input; it
returns `false` for an input that is truncated or whose first ten bytes do not end a number, and
leaves slice and variable as they were. -/
theorem varint64_codec :
    (∀ v < 2 ^ 64, ∀ dst : Bytes, ∃ bytes, putVarint64 dst v = .ok (dst ++ bytes) ∧
      1 ≤ bytes.length ∧ bytes.length ≤ 10 ∧
      ∀ rest value, getVarint64 (bytes ++ rest) value = .ok (true, v, rest)) ∧
    ∀ (input : Bytes) (value : ℕ), ∃ found value' input',
      getVarint64 input value = .ok (found, value', input') ∧
      (found = false ↔ ∀ b ∈ input.take 10, 128 ≤ b.toNat) ∧
      (found = false → value' = value ∧ input' = input) := by
  constructor
  · intro v hv dst
    refine ⟨KoishiDB.encodeVarint64 v, putVarint64_eq dst v, Leb128.length_encode_pos (by decide),
      length_encodeVarint64_le v, ?_⟩
    intro rest value
    rw [getVarint64_eq, getVarint64_encode hv]
  · intro input value
    rw [← getVarint64_eq_none_iff]
    cases h : KoishiDB.getVarint64 input with
    | none => exact ⟨false, value, input, by rw [getVarint64_eq, h], by simp, by simp⟩
    | some x => exact ⟨true, x.1, x.2, by rw [getVarint64_eq, h], by simp, by simp⟩

/-- Appending a list of numbers appends their varints. -/
theorem foldlM_putVarint32 (vs : List ℕ) (dst : Bytes) :
    vs.foldlM (fun dst v => putVarint32 v dst) dst =
      .ok (dst ++ vs.flatMap KoishiDB.encodeVarint32) := by
  induction vs generalizing dst with
  | nil => simp
  | cons v vs ih =>
    rw [List.foldlM_cons, putVarint32_eq, Exec.ok_bind, ih, KoishiDB.putVarint32,
      List.flatMap_cons, List.append_assoc]

/-- **The codec of 32-bit numbers.**  A list of numbers is read back from what `PutVarint32` appends
for them, whatever follows.  Each number takes `EncodeVarint32Length` bytes, from one to five, and
they are the bytes that `PutVarint64` appends. -/
theorem varint32_codec {vs : List ℕ} (h : ∀ v ∈ vs, v < 2 ^ 32) (dst rest : Bytes) :
    (∃ bytes, vs.foldlM (fun dst v => putVarint32 v dst) dst = .ok (dst ++ bytes) ∧
      decodeList getVarint32 vs.length (bytes ++ rest) = .ok (vs, rest)) ∧
    ∀ v ∈ vs, ∃ bytes, putVarint32 v dst = .ok (dst ++ bytes) ∧
      encodeVarint32Length v = .ok bytes.length ∧ 1 ≤ bytes.length ∧ bytes.length ≤ 5 ∧
      putVarint64 dst v = .ok (dst ++ bytes) := by
  constructor
  · refine ⟨vs.flatMap KoishiDB.encodeVarint32, foldlM_putVarint32 vs dst, ?_⟩
    exact decodeList_flatMap (fun v hv => getVarint32_encode (h v hv)) rest
  · intro v hv
    refine ⟨KoishiDB.encodeVarint32 v, putVarint32_eq v dst, encodeVarint32Length_eq v,
      length_encodeVarint32_pos v, length_encodeVarint32_le v, ?_⟩
    rw [putVarint64_eq, encodeVarint32_eq_encodeVarint64 (h v hv)]
    rfl

/-- The numbers around the first boundary, and the largest. -/
theorem varint32_codec_boundary :
    (∃ bytes, [127, 128, 2 ^ 32 - 1].foldlM (fun dst v => putVarint32 v dst) [] =
        .ok ([] ++ bytes) ∧
      decodeList getVarint32 3 (bytes ++ [9]) = .ok ([127, 128, 2 ^ 32 - 1], [9])) ∧
    ∀ v ∈ [127, 128, 2 ^ 32 - 1], ∃ bytes, putVarint32 v [] = .ok ([] ++ bytes) ∧
      encodeVarint32Length v = .ok bytes.length ∧ 1 ≤ bytes.length ∧ bytes.length ≤ 5 ∧
      putVarint64 [] v = .ok ([] ++ bytes) :=
  varint32_codec (by decide) [] [9]

end Buffer

end KoishiDB
