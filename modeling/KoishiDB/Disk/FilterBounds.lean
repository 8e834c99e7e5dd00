import KoishiDB.Disk.FilterReader

/-!
# The loads of the filter reader

`FilterBlockReader` and the Bloom filter once more, with a check of every load: a byte outside the
slice it is taken from is a fault, and so is a remainder by zero.  The block may be any byte string;
all positions in it come from words of the block itself.

Few checks of the source keep the reader inside.  The constructor makes sure that the array of
offsets starts in front of the last five bytes, so that each of its `num` entries has a word behind
it, for the last one the offset of the array (`Placed`).  `KeyMayMatch` makes sure that a filter
ends in front of the array, and the Bloom filter that it has a byte of bits.

* `loads_inside` : for every block, offset and key, and whatever the shift of the offset gives, the
  constructor and `KeyMayMatch` return.
* `filterKeyMayMatch_eq` : they return what the functions of `KoishiDB.Disk.FilterReader` do.
-/

namespace KoishiDB

namespace Buffer

/-! ### Words and remainders -/

/-- `DecodeFixed32` of the four bytes at `ptr`. -/
def decodeFixed32 (buf : Bytes) (ptr : ℕ) : Exec ℕ := do
  let b0 ← byteAt buf ptr
  let b1 ← byteAt buf (ptr + 1)
  let b2 ← byteAt buf (ptr + 2)
  let b3 ← byteAt buf (ptr + 3)
  return b0.toNat ||| b1.toNat <<< 8 ||| b2.toNat <<< 16 ||| b3.toNat <<< 24

/-- `a % b`. -/
def rem (a b : ℕ) : Exec ℕ := if b = 0 then .error .divisionByZero else .ok (a % b)

/-- `Slice(data + start, len)`, a part of the slice at `data`. -/
def subSlice (data : Bytes) (start len : ℕ) : Exec Bytes :=
  if start + len ≤ data.length then .ok ((data.drop start).take len) else .error .outOfBounds

/-! ### The hash -/

/-- `case 1` of the `switch` of `Hash`; `m` is its multiplier. -/
def hashCase1 (m : UInt32) (key : Bytes) (data : ℕ) (h : UInt32) : Exec UInt32 := do
  let b ← byteAt key data
  let h := h + b.toUInt32
  let h := h * m
  return h ^^^ (h >>> 24)

/-- `case 2`, which falls through. -/
def hashCase2 (m : UInt32) (key : Bytes) (data : ℕ) (h : UInt32) : Exec UInt32 := do
  let b ← byteAt key (data + 1)
  hashCase1 m key data (h + (b.toUInt32 <<< 8))

/-- `case 3`, which falls through. -/
def hashCase3 (m : UInt32) (key : Bytes) (data : ℕ) (h : UInt32) : Exec UInt32 := do
  let b ← byteAt key (data + 2)
  hashCase2 m key data (h + (b.toUInt32 <<< 16))

/-- The `switch` of `Hash` over the number of bytes left. -/
def hashTail (m : UInt32) (key : Bytes) (data : ℕ) (h : UInt32) : ℕ → Exec UInt32
  | 3 => hashCase3 m key data h
  | 2 => hashCase2 m key data h
  | 1 => hashCase1 m key data h
  | _ => return h

/-- The loop of `Hash`, cut off after `fuel` rounds, and the `switch` behind it. -/
def hashLoop (m : UInt32) (key : Bytes) (limit : ℕ) : ℕ → ℕ → UInt32 → Exec UInt32
  | 0, _, _ => .error .diverges
  | fuel + 1, data, h =>
    if data + 4 ≤ limit then do
      let w ← decodeFixed32 key data
      let h := h + UInt32.ofNat w
      let h := h * m
      hashLoop m key limit fuel (data + 4) (h ^^^ (h >>> 16))
    else hashTail m key data h (limit - data)

/-- `Hash`. -/
def hash (key : Bytes) (seed : UInt32) : Exec UInt32 :=
  hashLoop 0xc6a4a793 key key.length (key.length + 1) 0
    (seed ^^^ UInt32.ofNat (key.length * 0xc6a4a793))

/-- `BloomHash`. -/
def bloomHash (key : Bytes) : Exec UInt32 := hash key 0x66ccff

/-! ### The Bloom filter -/

/-- The loop of `BloomFilter::KeyMayMatch`, with the number of probes still to make. -/
def probeLoop (array : Bytes) (bits : ℕ) (delta : UInt32) : ℕ → UInt32 → Exec Bool
  | 0, _ => return true
  | k + 1, h => do
    let bitpos ← rem h.toNat bits
    let byte ← byteAt array (bitpos / 8)
    if byte &&& UInt8.ofNat (1 <<< (bitpos % 8)) = 0 then return false
    else probeLoop array bits delta k (h + delta)

/-- `BloomFilter::KeyMayMatch`. -/
def keyMayMatch (key bloomFilter : Bytes) : Exec Bool :=
  let len := bloomFilter.length
  if len < 2 then return false
  else do
    let bits := u64 ((len - 1) * 8)
    let k ← byteAt bloomFilter (len - 1)
    if k.toNat > 30 then return true
    else
      let h ← bloomHash key
      probeLoop bloomFilter bits ((h >>> 17) ||| (h <<< 15)) k.toNat h

/-! ### The reader -/

/-- `FilterBlockReader::FilterBlockReader`. -/
def filterBlockReader (contents : Bytes) : Exec FilterBlockReader :=
  let n := contents.length
  if n < 5 then return ⟨[], 0, 0, 0⟩
  else do
    Exec.require (n - 1 < contents.length) "n < size_"
    let baseLg ← byteAt contents (n - 1)
    let lastWord ← decodeFixed32 contents (n - 5)
    if lastWord > n - 5 then return ⟨[], 0, 0, baseLg.toNat⟩
    else return ⟨contents, lastWord, (n - 5 - lastWord) / 4, baseLg.toNat⟩

/-- `FilterBlockReader::KeyMayMatch`.  `shift` is what the machine makes of `>>`, which is undefined
for a shift by 64 bits or more. -/
def filterKeyMayMatch (shift : ℕ → ℕ → ℕ) (r : FilterBlockReader) (blockOffset : ℕ) (key : Bytes) :
    Exec Bool :=
  let index := shift blockOffset r.baseLg
  if index < r.num then do
    let start ← decodeFixed32 r.data (r.offset + index * 4)
    let limit ← decodeFixed32 r.data (r.offset + index * 4 + 4)
    if start ≤ limit ∧ limit ≤ r.offset then
      let filter ← subSlice r.data start (limit - start)
      keyMayMatch key filter
    else if start = limit then return false
    else return true
  else return true

/-! ### Loads inside -/

/-- The four bytes are put together as a number. -/
theorem or_bytes (b0 b1 b2 b3 : UInt8) :
    b0.toNat ||| b1.toNat <<< 8 ||| b2.toNat <<< 16 ||| b3.toNat <<< 24 =
      leNat [b0, b1, b2, b3] := by
  have h0 := b0.toNat_lt
  have h1 := b1.toNat_lt
  have h2 := b2.toNat_lt
  have h01 : b0.toNat ||| b1.toNat <<< 8 = b0.toNat + b1.toNat * 2 ^ 8 :=
    or_shiftLeft_eq_add (by omega)
  rw [h01, or_shiftLeft_eq_add (show _ < 2 ^ 16 by omega),
    or_shiftLeft_eq_add (show _ < 2 ^ 24 by omega)]
  simp only [leNat]
  omega

theorem decodeFixed32_of_drop {buf rest : Bytes} {ptr : ℕ} {b0 b1 b2 b3 : UInt8}
    (h : buf.drop ptr = b0 :: b1 :: b2 :: b3 :: rest) :
    decodeFixed32 buf ptr = .ok (leNat [b0, b1, b2, b3]) := by
  rw [decodeFixed32, byteAt_of_drop h, byteAt_add (i := 1) h rfl, byteAt_add (i := 2) h rfl,
    byteAt_add (i := 3) h rfl, ← or_bytes]
  rfl

theorem exists_cons_of_le {buf : Bytes} {ptr : ℕ} (h : ptr + 4 ≤ buf.length) :
    ∃ b0 b1 b2 b3 rest, buf.drop ptr = b0 :: b1 :: b2 :: b3 :: rest := by
  have hlen : 4 ≤ (buf.drop ptr).length := by
    rw [List.length_drop]
    omega
  match buf.drop ptr, hlen with
  | b0 :: b1 :: b2 :: b3 :: rest, _ => exact ⟨b0, b1, b2, b3, rest, rfl⟩

/-- A word that lies inside the buffer. -/
theorem decodeFixed32_of_le {buf : Bytes} {ptr : ℕ} (h : ptr + 4 ≤ buf.length) :
    decodeFixed32 buf ptr = .ok (KoishiDB.decodeFixed32 (buf.drop ptr)) := by
  obtain ⟨b0, b1, b2, b3, rest, hdrop⟩ := exists_cons_of_le h
  rw [decodeFixed32_of_drop hdrop, hdrop]
  rfl

/-- The `switch` of the hash loads the bytes that are left. -/
theorem hashTail_eq (m : UInt32) {key : Bytes} {data : ℕ} (hlt : key.length < data + 4)
    (h : UInt32) :
    hashTail m key data h (key.length - data) = .ok (KoishiDB.hashLoop m (key.drop data) h) := by
  have hlen : key.length - data = (key.drop data).length := List.length_drop.symm
  rw [hlen]
  rcases hdrop : key.drop data with _ | ⟨b0, _ | ⟨b1, _ | ⟨b2, _ | ⟨b3, rest⟩⟩⟩⟩
  · rfl
  · simp only [List.length_singleton, hashTail, hashCase1, byteAt_of_drop hdrop, Exec.ok_bind,
      Exec.pure_eq, KoishiDB.hashLoop]
  · have h1 := byteAt_add (i := 1) hdrop rfl
    simp only [List.length_cons, List.length_nil, Nat.zero_add, Nat.reduceAdd, hashTail, hashCase2,
      hashCase1, h1, byteAt_of_drop hdrop, Exec.ok_bind, Exec.pure_eq, KoishiDB.hashLoop]
  · have h1 := byteAt_add (i := 1) hdrop rfl
    have h2 := byteAt_add (i := 2) hdrop rfl
    simp only [List.length_cons, List.length_nil, Nat.zero_add, Nat.reduceAdd, hashTail, hashCase3,
      hashCase2, hashCase1, h1, h2, byteAt_of_drop hdrop, Exec.ok_bind, Exec.pure_eq,
      KoishiDB.hashLoop]
  · simp only [hdrop, List.length_cons] at hlen
    omega

/-- The loop of the hash makes no load outside the key. -/
theorem hashLoop_eq (m : UInt32) (key : Bytes) {fuel data : ℕ} (hfuel : key.length - data < fuel)
    (h : UInt32) :
    hashLoop m key key.length fuel data h = .ok (KoishiDB.hashLoop m (key.drop data) h) := by
  induction fuel generalizing data h with
  | zero => cases hfuel
  | succ fuel ih =>
    rw [hashLoop]
    by_cases hle : data + 4 ≤ key.length
    · rw [if_pos hle]
      obtain ⟨b0, b1, b2, b3, rest, hdrop⟩ := exists_cons_of_le hle
      have hrest : key.drop (data + 4) = rest := by
        rw [← List.drop_drop, hdrop]
        rfl
      rw [decodeFixed32_of_drop hdrop, Exec.ok_bind, ih (by omega), hrest, hdrop, KoishiDB.hashLoop]
    · rw [if_neg hle]
      exact hashTail_eq m (not_le.1 hle) h

theorem bloomHash_eq (key : Bytes) : bloomHash key = .ok (KoishiDB.bloomHash key) := by
  rw [bloomHash, hash, hashLoop_eq _ key (by omega), List.drop_zero, KoishiDB.bloomHash,
    KoishiDB.hash]

/-- A probe looks at a byte of the array, and the remainder is not one by zero. -/
theorem probeLoop_eq {array : Bytes} {bits : ℕ} (hbits : 0 < bits) (hlen : bits ≤ array.length * 8)
    (delta : UInt32) (k : ℕ) (h : UInt32) :
    probeLoop array bits delta k h = .ok ((probes bits delta k h).all (testBit array)) := by
  induction k generalizing h with
  | zero => rfl
  | succ k ih =>
    have hlt : h.toNat % bits < bits := Nat.mod_lt _ hbits
    have hrem : rem h.toNat bits = .ok (h.toNat % bits) := if_neg hbits.ne'
    rw [probeLoop, hrem, Exec.ok_bind, byteAt_of_lt (by omega), Exec.ok_bind, probes, List.all_cons,
      ih]
    by_cases hbit : array.getD (h.toNat % bits / 8) 0 &&&
        UInt8.ofNat (1 <<< (h.toNat % bits % 8)) = 0
    · have htest : testBit array (h.toNat % bits) = false := by
        rw [testBit, hbit]
        rfl
      rw [if_pos hbit, htest, Bool.false_and]
      rfl
    · have htest : testBit array (h.toNat % bits) = true := by simpa [testBit] using hbit
      rw [if_neg hbit, htest, Bool.true_and]

/-- The Bloom filter makes no load outside its slice. -/
theorem keyMayMatch_eq (key : Bytes) {bloomFilter : Bytes} (h : bloomFilter.length < 2 ^ 61) :
    keyMayMatch key bloomFilter = .ok (KoishiDB.keyMayMatch key bloomFilter) := by
  unfold keyMayMatch KoishiDB.keyMayMatch
  dsimp only
  split
  · rfl
  · have hbits : u64 ((bloomFilter.length - 1) * 8) = (bloomFilter.length - 1) * 8 :=
      u64_of_lt (by omega)
    rw [byteAt_of_lt (by omega), Exec.ok_bind, hbits]
    split
    · rfl
    · rw [bloomHash_eq, Exec.ok_bind, probeLoop_eq (by omega) (by omega)]
      rfl

/-- Behind the entries of the array of offsets stand a word and a byte. -/
def Placed (r : FilterBlockReader) : Prop := 0 < r.num → r.offset + r.num * 4 + 5 ≤ r.data.length

theorem placed_make (contents : Bytes) : Placed (.make contents) := by
  unfold Placed FilterBlockReader.make
  dsimp only
  split_ifs <;> dsimp only <;> omega

/-- The constructor makes no load outside the block. -/
theorem filterBlockReader_eq (contents : Bytes) :
    filterBlockReader contents = .ok (.make contents) := by
  unfold filterBlockReader FilterBlockReader.make
  dsimp only
  split
  · rfl
  · rw [Exec.require_of (by omega), Exec.ok_bind, byteAt_of_lt (by omega), Exec.ok_bind,
      decodeFixed32_of_le (by omega), Exec.ok_bind]
    split <;> rfl

/-- `KeyMayMatch` makes no load outside the block.  It answers for the filter with the number that
the shift gives. -/
theorem filterKeyMayMatch_eq {r : FilterBlockReader} (hr : Placed r) (shift : ℕ → ℕ → ℕ)
    (blockOffset : ℕ) (key : Bytes) :
    filterKeyMayMatch shift r blockOffset key =
      { r with baseLg := 0 }.keyMayMatch (shift blockOffset r.baseLg) key := by
  unfold filterKeyMayMatch FilterBlockReader.keyMayMatch
  dsimp only
  generalize shift blockOffset r.baseLg = index
  have h0 : ¬ 64 ≤ 0 := by decide
  rw [if_neg h0, Nat.shiftRight_zero]
  by_cases hindex : index < r.num
  · have hplaced := hr (by omega)
    rw [if_pos hindex, if_pos hindex, decodeFixed32_of_le (by omega), Exec.ok_bind,
      decodeFixed32_of_le (by omega), Exec.ok_bind]
    have hlt := decodeFixed32_lt (r.data.drop (r.offset + index * 4 + 4))
    generalize KoishiDB.decodeFixed32 (r.data.drop (r.offset + index * 4)) = start
    generalize KoishiDB.decodeFixed32 (r.data.drop (r.offset + index * 4 + 4)) = limit at hlt ⊢
    by_cases hrange : start ≤ limit ∧ limit ≤ r.offset
    · -- the filter ends where the array starts, or in front of it
      have hsub : subSlice r.data start (limit - start) =
          .ok ((r.data.drop start).take (limit - start)) := if_pos (by omega)
      rw [if_pos hrange, if_pos hrange, hsub, Exec.ok_bind, keyMayMatch_eq]
      exact (List.length_take_le _ _).trans_lt (by omega)
    · rw [if_neg hrange, if_neg hrange]
      split <;> rfl
  · rw [if_neg hindex, if_neg hindex]
    rfl

/-- Where the shift is defined, that is the answer of the reader. -/
theorem filterKeyMayMatch_shiftRight {r : FilterBlockReader} (hr : Placed r) (hlg : r.baseLg < 64)
    (blockOffset : ℕ) (key : Bytes) :
    filterKeyMayMatch (· >>> ·) r blockOffset key = r.keyMayMatch blockOffset key := by
  have h0 : ¬ 64 ≤ 0 := by decide
  rw [filterKeyMayMatch_eq hr, FilterBlockReader.keyMayMatch, FilterBlockReader.keyMayMatch,
    if_neg h0, if_neg (not_le.2 hlg)]
  rfl

/-- The reader answers wherever the shift is defined. -/
theorem exists_keyMayMatch {r : FilterBlockReader} (hlg : r.baseLg < 64) (blockOffset : ℕ)
    (key : Bytes) : ∃ b, r.keyMayMatch blockOffset key = .ok b := by
  rw [FilterBlockReader.keyMayMatch, if_neg (not_le.2 hlg)]
  dsimp only
  split_ifs <;> exact ⟨_, rfl⟩

/-- **The filter reader stays inside its input.**  For every block, the constructor returns, and for
every offset, every key and every result of the shift so does `KeyMayMatch`: all loads are inside
the block, those of the Bloom filter inside the filter, and no remainder by zero is taken. -/
theorem loads_inside (contents : Bytes) :
    ∃ r, filterBlockReader contents = .ok r ∧
      ∀ (shift : ℕ → ℕ → ℕ) (blockOffset : ℕ) (key : Bytes),
        ∃ b, filterKeyMayMatch shift r blockOffset key = .ok b := by
  refine ⟨_, filterBlockReader_eq contents, ?_⟩
  intro shift blockOffset key
  rw [filterKeyMayMatch_eq (placed_make contents)]
  exact exists_keyMayMatch (Nat.zero_lt_succ 63) _ _

end Buffer

end KoishiDB
