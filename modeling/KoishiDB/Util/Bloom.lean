import KoishiDB.Util.Encode
import Mathlib.Data.List.GetD

/-!
# The Bloom filter

`util/bloom_filter.h` and `util/bloom_filter.cc`: a hash in the manner of murmur, and a filter
whose last byte is the number of probes.  The number of probes for the ten bits a key that every
user of the filter asks for is `static_cast<size_t>(10 * 0.69) = 6`.

* `BloomFilter.createFilter_accepts` : with any number of bits a key and of probes, a filter accepts
  every key it was made from.
* `createFilter_eq` : the same for the filter of the tables, with the size of what is appended.
-/

namespace KoishiDB

/-- The number of hash functions `k_` of `BloomFilter(kBloomFilterPerKeySize)`. -/
def kBloomFilterProbes : ℕ := 6

/-- The loop and the final `switch` of `Hash`, with the state `h`.  The multiplier is a variable, so
that the equations of the loop hold by unfolding; with the number itself the unfolding would take
the product apart. -/
def hashLoop (m : UInt32) : Bytes → UInt32 → UInt32
  | b0 :: b1 :: b2 :: b3 :: data, h =>
    let h := h + UInt32.ofNat (leNat [b0, b1, b2, b3])
    let h := h * m
    hashLoop m data (h ^^^ (h >>> 16))
  | [b0, b1, b2], h =>
    let h := h + (b2.toUInt32 <<< 16) + (b1.toUInt32 <<< 8) + b0.toUInt32
    let h := h * m
    h ^^^ (h >>> 24)
  | [b0, b1], h =>
    let h := h + (b1.toUInt32 <<< 8) + b0.toUInt32
    let h := h * m
    h ^^^ (h >>> 24)
  | [b0], h =>
    let h := h + b0.toUInt32
    let h := h * m
    h ^^^ (h >>> 24)
  | [], h => h

/-- `Hash`. -/
def hash (data : Bytes) (seed : UInt32) : UInt32 :=
  hashLoop 0xc6a4a793 data (seed ^^^ UInt32.ofNat (data.length * 0xc6a4a793))

/-- `BloomHash`. -/
def bloomHash (key : Bytes) : UInt32 := hash key 0x66ccff

/-- The bits that `k` probes look at, out of `bits`. -/
def probes (bits : ℕ) (delta : UInt32) : ℕ → UInt32 → List ℕ
  | 0, _ => []
  | k + 1, h => h.toNat % bits :: probes bits delta k (h + delta)

/-- The probes of a key. -/
def keyProbes (k bits : ℕ) (key : Bytes) : List ℕ :=
  let h := bloomHash key
  probes bits ((h >>> 17) ||| (h <<< 15)) k h

/-- `array[bitpos / 8] |= (1 << (bitpos % 8))`. -/
def setBit (array : Bytes) (bitpos : ℕ) : Bytes :=
  array.modify (bitpos / 8) (· ||| UInt8.ofNat (1 <<< (bitpos % 8)))

/-- `(array[bitpos / 8] & (1 << (bitpos % 8))) != 0`. -/
def testBit (array : Bytes) (bitpos : ℕ) : Bool :=
  array.getD (bitpos / 8) 0 &&& UInt8.ofNat (1 <<< (bitpos % 8)) != 0

/-- The number of bytes of a filter with `bits` bits. -/
def filterBytes (bits : ℕ) : ℕ := ((if bits < 64 then 64 else bits) + 7) / 8

/-- The bits of the keys, `k` for each, in an array of `bytes` bytes. -/
def setKeys (k bytes : ℕ) (keys : List Bytes) (array : Bytes) : Bytes :=
  keys.foldl (fun array key => (keyProbes k (bytes * 8) key).foldl setBit array) array

/-- `class BloomFilter`.  The constructor brings the number of hash functions into its range. -/
structure BloomFilter where
  bitsPerKey : ℕ
  /-- The number of hash functions. -/
  k : ℕ
  one_le_k : 1 ≤ k
  k_le : k ≤ 30

/-- `BloomFilter::CreateFilter` for the keys of a vector: `dst` with the filter behind it. -/
def BloomFilter.createFilter (f : BloomFilter) (keys : List Bytes) (dst : Bytes) : Exec Bytes := do
  let n := toInt32 (u32 keys.length)
  let bits ← mulInt n f.bitsPerKey
  -- as a `size_t`, a negative number of bits is too large a size for `resize`, unless adding 7 to
  -- it gives a small number again; the loop over the keys does nothing then
  if bits < -7 then throw .outOfBounds
  if bits < 0 then return dst ++ [UInt8.ofNat f.k]
  let bytes := filterBytes bits.toNat
  let array := setKeys f.k bytes (keys.take n.toNat) (List.replicate bytes 0)
  return dst ++ array ++ [UInt8.ofNat f.k]

/-- The filter of the tables, `BloomFilter(kBloomFilterPerKeySize)`. -/
def bloomFilter : BloomFilter :=
  ⟨kBloomFilterPerKeySize, kBloomFilterProbes, by decide, by decide⟩

/-- `CreateFilter` of the filter of the tables. -/
def createFilter (keys : List Bytes) (dst : Bytes) : Exec Bytes := bloomFilter.createFilter keys dst

/-- `BloomFilter::KeyMayMatch`. -/
def keyMayMatch (key bloomFilter : Bytes) : Bool :=
  let len := bloomFilter.length
  if len < 2 then false
  else
    let bits := (len - 1) * 8
    -- a byte from 128 on is a negative `char`, and then a `size_t` above 30
    let k := (bloomFilter.getD (len - 1) 0).toNat
    if k > 30 then true
    else (keyProbes k bits key).all (testBit bloomFilter)

@[simp] theorem length_setBit (array : Bytes) (bitpos : ℕ) :
    (setBit array bitpos).length = array.length := by
  simp [setBit]

theorem length_foldl_setBit (positions : List ℕ) (array : Bytes) :
    (positions.foldl setBit array).length = array.length := by
  induction positions generalizing array with
  | nil => rfl
  | cons p ps ih => rw [List.foldl_cons, ih, length_setBit]

/-! ### No false negatives -/

theorem or_and_ne_zero {x m : UInt8} (h : x &&& m ≠ 0) (m' : UInt8) : (x ||| m') &&& m ≠ 0 := by
  have hdistrib : (x ||| m') &&& m = (x &&& m) ||| (m' &&& m) := by
    rw [← UInt8.toNat_inj]
    simp [Nat.and_or_distrib_right]
  intro h0
  rw [hdistrib] at h0
  exact h (UInt8.or_eq_zero_iff.1 h0).1

theorem bit_ne_zero {i : ℕ} (h : i < 8) : UInt8.ofNat (1 <<< i) ≠ 0 := by
  revert i
  decide

/-- A bit that is set stays set. -/
theorem testBit_setBit_of {array : Bytes} {q : ℕ} (h : testBit array q = true) (p : ℕ) :
    testBit (setBit array p) q = true := by
  simp only [testBit, setBit, List.getD_eq_getElem?_getD, List.getElem?_modify, bne_iff_ne] at h ⊢
  by_cases hpq : p / 8 = q / 8
  · cases hx : array[q / 8]? with
    | none => simp [hx] at h
    | some x =>
      rw [hx] at h
      simpa [hpq] using or_and_ne_zero h _
  · simpa [hpq] using h

/-- The bit that is set, inside the array. -/
theorem testBit_setBit_self {array : Bytes} {p : ℕ} (h : p / 8 < array.length) :
    testBit (setBit array p) p = true := by
  simp only [testBit, setBit, List.getD_eq_getElem?_getD, List.getElem?_modify, bne_iff_ne]
  rw [List.getElem?_eq_getElem h]
  have hself : UInt8.ofNat (1 <<< (p % 8)) &&& UInt8.ofNat (1 <<< (p % 8)) ≠ 0 := by
    rw [UInt8.and_self]
    exact bit_ne_zero (Nat.mod_lt _ (by decide))
  have hor := or_and_ne_zero hself (array.get ⟨p / 8, h⟩)
  rw [UInt8.or_comm] at hor
  simpa using hor

theorem testBit_foldl_setBit_of {array : Bytes} {q : ℕ} (h : testBit array q = true)
    (positions : List ℕ) : testBit (positions.foldl setBit array) q = true := by
  induction positions generalizing array with
  | nil => exact h
  | cons p ps ih => exact ih (testBit_setBit_of h p)

theorem testBit_foldl_setBit {array : Bytes} {positions : List ℕ} {q : ℕ} (hq : q ∈ positions)
    (hlt : q / 8 < array.length) : testBit (positions.foldl setBit array) q = true := by
  induction positions generalizing array with
  | nil => cases hq
  | cons p ps ih =>
    rcases List.mem_cons.1 hq with rfl | hq
    · exact testBit_foldl_setBit_of (testBit_setBit_self hlt) ps
    · exact ih hq (by rwa [length_setBit])

theorem probes_lt {bits : ℕ} (hbits : 0 < bits) {delta : UInt32} {k : ℕ} {h : UInt32} {p : ℕ}
    (hp : p ∈ probes bits delta k h) : p < bits := by
  induction k generalizing h with
  | zero => cases hp
  | succ k ih =>
    rcases List.mem_cons.1 hp with rfl | hp
    · exact Nat.mod_lt _ hbits
    · exact ih hp

theorem length_setKeys (k bytes : ℕ) (keys : List Bytes) (array : Bytes) :
    (setKeys k bytes keys array).length = array.length := by
  induction keys generalizing array with
  | nil => rfl
  | cons key keys ih => exact (ih _).trans (length_foldl_setBit _ _)

theorem testBit_setKeys_of {k bytes q : ℕ} (keys : List Bytes) {array : Bytes}
    (h : testBit array q = true) : testBit (setKeys k bytes keys array) q = true := by
  induction keys generalizing array with
  | nil => exact h
  | cons key keys ih => exact ih (testBit_foldl_setBit_of h _)

theorem testBit_setKeys {k : ℕ} {keys : List Bytes} {key : Bytes} (hkey : key ∈ keys)
    {array : Bytes} (hpos : 0 < array.length) {q : ℕ}
    (hq : q ∈ keyProbes k (array.length * 8) key) :
    testBit (setKeys k array.length keys array) q = true := by
  have hlt : q / 8 < array.length := by
    have := probes_lt (by omega) hq
    omega
  -- later keys leave the bits of the key set
  generalize hn : array.length = bytes at hpos hq hlt ⊢
  induction keys generalizing array with
  | nil => cases hkey
  | cons key' keys ih =>
    rcases List.mem_cons.1 hkey with rfl | hkey
    · exact testBit_setKeys_of keys (testBit_foldl_setBit hq (by rwa [hn]))
    · exact ih hkey ((length_foldl_setBit _ _).trans hn)

theorem filterBytes_pos (bits : ℕ) : 0 < filterBytes bits := by
  unfold filterBytes
  split_ifs <;> omega

/-- A filter accepts the keys it was made from.  The checker finds the number of probes in the last
byte and the number of bits in the length. -/
theorem keyMayMatch_setKeys {k : ℕ} (hk : k ≤ 30) {keys : List Bytes} {key : Bytes}
    (hkey : key ∈ keys) {bytes : ℕ} (hpos : 0 < bytes) :
    keyMayMatch key (setKeys k bytes keys (List.replicate bytes 0) ++ [UInt8.ofNat k]) = true := by
  have hlen : (setKeys k bytes keys (List.replicate bytes 0)).length = bytes := by
    rw [length_setKeys, List.length_replicate]
  have hlast : ((setKeys k bytes keys (List.replicate bytes 0) ++
      [UInt8.ofNat k]).getD bytes 0).toNat = k := by
    rw [List.getD_eq_getElem?_getD, List.getElem?_append_right hlen.le, hlen, Nat.sub_self,
      List.getElem?_cons_zero, Option.getD_some]
    exact toNat_ofNat (by omega)
  have h2 : ¬ bytes + 1 < 2 := by omega
  simp only [keyMayMatch, List.length_append, List.length_singleton, hlen, Nat.add_sub_cancel,
    hlast, if_neg h2, if_neg (not_lt.2 hk)]
  apply List.all_eq_true.2
  intro q hq
  have hlt := probes_lt (by omega) hq
  have hpos' : 0 < (List.replicate bytes (0 : UInt8)).length := by rwa [List.length_replicate]
  have hset := testBit_setKeys hkey hpos' (by rwa [List.length_replicate])
  rw [List.length_replicate] at hset
  unfold testBit at hset ⊢
  rwa [List.getD_append _ _ _ _ (by omega)]

namespace BloomFilter

/-- For a number of keys that an `int` can count the bits of, the array of bits and the number of
probes are appended. -/
theorem createFilter_of_lt (f : BloomFilter) (hbits : 0 < f.bitsPerKey) {keys : List Bytes}
    (h : keys.length * f.bitsPerKey < 2 ^ 31) (dst : Bytes) :
    f.createFilter keys dst = .ok (dst ++
      (setKeys f.k (filterBytes (keys.length * f.bitsPerKey)) keys
        (List.replicate (filterBytes (keys.length * f.bitsPerKey)) 0) ++ [UInt8.ofNat f.k])) := by
  have hlt : keys.length < 2 ^ 31 := (Nat.le_mul_of_pos_right _ hbits).trans_lt h
  have hn : toInt32 (u32 keys.length) = keys.length := by
    rw [u32_of_lt (by omega), toInt32_of_lt hlt]
  have hmul : mulInt keys.length f.bitsPerKey = .ok (keys.length * f.bitsPerKey : ℕ) := by
    have hcast : (keys.length : ℤ) * f.bitsPerKey = (keys.length * f.bitsPerKey : ℕ) := by simp
    rw [mulInt_of (by unfold IntRange; omega), hcast]
  have hnonneg : ∀ n : ℕ, ¬ (n : ℤ) < -7 ∧ ¬ (n : ℤ) < 0 := by omega
  simp only [createFilter, hn, hmul, Exec.ok_bind, hnonneg, ↓reduceIte, Exec.pure_eq,
    List.append_assoc, Int.toNat_natCast, List.take_length]

/-- **No false negatives.**  For every filter, every list of keys whose bits an `int` can count, and
every content of `dst`: the old content stays in front, and what is appended to it accepts every
key of the list. -/
theorem createFilter_accepts (f : BloomFilter) (hbits : 0 < f.bitsPerKey) (keys : List Bytes)
    (h : keys.length * f.bitsPerKey < 2 ^ 31) (dst : Bytes) :
    ∃ filter, f.createFilter keys dst = .ok (dst ++ filter) ∧
      ∀ key ∈ keys, keyMayMatch key filter = true :=
  ⟨_, f.createFilter_of_lt hbits h dst, fun _ hkey =>
    keyMayMatch_setKeys f.k_le hkey (filterBytes_pos _)⟩

/-- Three keys, one of them empty, with five bits a key and three probes. -/
theorem createFilter_accepts_three_keys :
    ∃ filter, BloomFilter.createFilter ⟨5, 3, by decide, by decide⟩ [[97], [], [0, 255]] [1, 2] =
        .ok ([1, 2] ++ filter) ∧
      ∀ key ∈ [[97], [], [0, 255]], keyMayMatch key filter = true :=
  createFilter_accepts _ (by decide) _ (by decide) _

end BloomFilter

/-- For a number of keys that an `int` can count the bits of, a filter is appended that accepts the
keys. -/
theorem createFilter_eq {keys : List Bytes} (h : keys.length * 10 < 2 ^ 31) (dst : Bytes) :
    ∃ filter, createFilter keys dst = .ok (dst ++ filter) ∧
      filter.length = filterBytes (keys.length * 10) + 1 ∧
      ∀ key ∈ keys, keyMayMatch key filter = true := by
  refine ⟨_, bloomFilter.createFilter_of_lt (by decide) h dst, ?_, fun key hkey =>
    keyMayMatch_setKeys bloomFilter.k_le hkey (filterBytes_pos _)⟩
  rw [List.length_append, length_setKeys, List.length_replicate]
  rfl

theorem filterBytes_le (bits : ℕ) : filterBytes bits ≤ bits + 8 := by
  unfold filterBytes
  split_ifs <;> omega

/-- A filter that was made has as many bits as an `int` gives for its keys. -/
theorem createFilter_bits {keys : List Bytes} {dst result : Bytes}
    (h : createFilter keys dst = .ok result) :
    ∃ bits : ℕ, (bits : ℤ) = toInt32 (u32 keys.length) * 10 ∧ bits < 2 ^ 31 ∧
      result.length = dst.length + filterBytes bits + 1 := by
  obtain ⟨bits, hbits, h⟩ := Exec.bind_eq_ok.1 h
  unfold mulInt at hbits
  split at hbits
  · rename_i hr
    rw [Except.ok.inj hbits] at hr
    have heq : toInt32 (u32 keys.length) * 10 = bits := Except.ok.inj hbits
    dsimp only at h
    split at h
    · cases h
    split at h
    · -- a multiple of ten is not in this range
      omega
    · rename_i h0
      cases h
      refine ⟨bits.toNat, by omega, by have := hr.2; omega, ?_⟩
      simp only [List.length_append, length_setKeys, List.length_replicate, List.length_singleton]
  · cases hbits

/-- However many keys there are, a filter that was made has fewer than `2 ^ 31` bits. -/
theorem length_createFilter_le {keys : List Bytes} {dst result : Bytes}
    (h : createFilter keys dst = .ok result) : result.length ≤ dst.length + 2 ^ 29 := by
  obtain ⟨bits, -, hlt, hlen⟩ := createFilter_bits h
  have hbytes : filterBytes bits ≤ 2 ^ 28 := by
    unfold filterBytes
    split_ifs <;> omega
  omega

/-- A filter is made only for a number of keys that an `int` can count the bits of. -/
theorem few_of_createFilter {keys : List Bytes} {dst result : Bytes} (hlt : keys.length < 2 ^ 32)
    (h : createFilter keys dst = .ok result) : keys.length * 10 < 2 ^ 31 := by
  obtain ⟨bits, hbits, hbits', -⟩ := createFilter_bits h
  rw [u32_of_lt hlt, toInt32] at hbits
  split at hbits <;> omega

end KoishiDB
