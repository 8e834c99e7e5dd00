import KoishiDB.Disk.WritableFile
import KoishiDB.Util.Varint
import KoishiDB.Type.Key

/-!
# Handles, footers and file metas

`disk/format.h` and the file-meta functions of `disk/sstable.cc`.  The footer of a table is the
handle of the index block, the handle of the filter block and zero bytes up to `kFixedFooterSize`.

* `Footer.decodeFrom_handles` : a footer is read back, whatever stands behind its two handles.
* `Footer.cString_handles` : what `Append(footer_encoded.data())` takes of a footer is the handles
  without the zero bytes, as soon as no number in it is zero.
* `Footer.appendTo_codec` : a footer takes exactly `kFixedFooterSize` bytes, whatever stands in
  front of it, is read back from them, and is not read when its handles are cut off.
* `FileMeta.decode_encode` : a file meta is read back from the manifest.
* `FileMeta.decodeList_encode` : so is a list of them, one behind the other.
-/

namespace KoishiDB

/-- `class BlockHandle`. -/
structure BlockHandle where
  offset : ℕ
  size : ℕ
deriving Repr, DecidableEq

namespace BlockHandle

/-- The constructor: both fields are `~0`. -/
def make : BlockHandle := ⟨UINT64_MAX, UINT64_MAX⟩

/-- The bytes of a handle. -/
def bytes (h : BlockHandle) : Bytes := encodeVarint64 h.offset ++ encodeVarint64 h.size

/-- `BlockHandle::EncodeTo`: the bytes appended. -/
def encodeTo (h : BlockHandle) : Exec Bytes := do
  Exec.require (h.offset ≠ UINT64_MAX) "offset_ != ~static_cast<uint64_t>(0)"
  Exec.require (h.size ≠ UINT64_MAX) "size_ != ~static_cast<uint64_t>(0)"
  return h.bytes

/-- `BlockHandle::DecodeFrom`; `none` is the status `Corruption("bad block handle")`. -/
def decodeFrom (input : Bytes) : Option (BlockHandle × Bytes) :=
  match getVarint64 input with
  | none => none
  | some (offset, input) =>
    match getVarint64 input with
    | none => none
    | some (size, input) => some (⟨offset, size⟩, input)

/-- Both fields are set and have 64 bits. -/
def IsSet (h : BlockHandle) : Prop := h.offset < UINT64_MAX ∧ h.size < UINT64_MAX

theorem encodeTo_of_isSet {h : BlockHandle} (hs : h.IsSet) : h.encodeTo = .ok h.bytes := by
  simp only [encodeTo, Exec.require_of hs.1.ne, Exec.require_of hs.2.ne, Exec.ok_bind,
    Exec.pure_eq]

theorem decodeFrom_eq_andThen : decodeFrom = andThen BlockHandle.mk getVarint64 getVarint64 := by
  funext input
  unfold decodeFrom andThen
  cases getVarint64 input with
  | none => rfl
  | some x => cases h : getVarint64 x.2 <;> simp [h]

/-- A handle is read whatever follows it, and is not read when it is cut off. -/
theorem delimits_decodeFrom {h : BlockHandle} (hs : h.IsSet) : Delimits decodeFrom h.bytes h := by
  obtain ⟨h1, h2⟩ := hs
  unfold UINT64_MAX at h1 h2
  rw [decodeFrom_eq_andThen]
  exact (delimits_getVarint64 (by omega)).andThen mk (delimits_getVarint64 (by omega))

theorem decodeFrom_bytes {h : BlockHandle} (hs : h.IsSet) (rest : Bytes) :
    decodeFrom (h.bytes ++ rest) = some (h, rest) :=
  (delimits_decodeFrom hs).read rest

theorem length_bytes_le (h : BlockHandle) : h.bytes.length ≤ 20 := by
  have h1 := length_encodeVarint64_le h.offset
  have h2 := length_encodeVarint64_le h.size
  rw [bytes, List.length_append]
  omega

theorem zero_notMem_bytes {h : BlockHandle} (hs : h.IsSet) (h1 : 0 < h.offset) (h2 : 0 < h.size) :
    0 ∉ h.bytes := by
  obtain ⟨hs1, hs2⟩ := hs
  unfold UINT64_MAX at hs1 hs2
  simp only [bytes, List.mem_append, not_or]
  exact ⟨zero_notMem_encodeVarint64 h1 (by omega), zero_notMem_encodeVarint64 h2 (by omega)⟩

end BlockHandle

/-- `class Footer`. -/
structure Footer where
  index : BlockHandle
  filter : BlockHandle
deriving Repr, DecidableEq

namespace Footer

/-- `Footer::EncodeTo`: the bytes appended. -/
def encodeTo (f : Footer) : Exec Bytes := do
  let index ← f.index.encodeTo
  let filter ← f.filter.encodeTo
  let dst := index ++ filter
  return dst ++ List.replicate (kFixedFooterSize - dst.length) 0

/-- `Footer::EncodeTo(dst)`: the string afterwards.  The length of `dst` becomes an `int`, which the
subtraction converts to a `size_t`; the number of zero bytes is an `int` again. -/
def appendTo (f : Footer) (dst : Bytes) : Exec Bytes := do
  let start := toInt32 (u32 dst.length)
  let index ← f.index.encodeTo
  let dst := dst ++ index
  let filter ← f.filter.encodeTo
  let dst := dst ++ filter
  let written := ((dst.length : ℤ) - start) % 2 ^ 64
  let paddings := toInt32 (u32 ((kFixedFooterSize - written) % 2 ^ 64).toNat)
  -- as a `size_t`, a negative number is too large a size for `append`
  if paddings < 0 then throw .outOfBounds
  return dst ++ List.replicate paddings.toNat 0

/-- `Footer::DecodeFrom`; `none` is a status that is not OK. -/
def decodeFrom (input : Bytes) : Option Footer :=
  match BlockHandle.decodeFrom input with
  | none => none
  | some (index, input) =>
    match BlockHandle.decodeFrom input with
    | none => none
    | some (filter, _) => some ⟨index, filter⟩

/-- The bytes of the two handles of a footer. -/
def handles (f : Footer) : Bytes := f.index.bytes ++ f.filter.bytes

theorem length_handles_le (f : Footer) : f.handles.length ≤ kFixedFooterSize := by
  have h1 := f.index.length_bytes_le
  have h2 := f.filter.length_bytes_le
  rw [handles, List.length_append, kFixedFooterSize]
  omega

/-- The encoded footer has its fixed size. -/
theorem encodeTo_spec {f : Footer} (hi : f.index.IsSet) (hf : f.filter.IsSet) :
    f.encodeTo = .ok (f.handles ++ List.replicate (kFixedFooterSize - f.handles.length) 0) ∧
      (f.handles ++ List.replicate (kFixedFooterSize - f.handles.length) 0).length =
        kFixedFooterSize := by
  constructor
  · simp only [encodeTo, BlockHandle.encodeTo_of_isSet hi, BlockHandle.encodeTo_of_isSet hf,
      Exec.ok_bind, Exec.pure_eq, handles]
  · have := f.length_handles_le
    simp only [List.length_append, List.length_replicate]
    omega

theorem decodeFrom_eq_andThen (input : Bytes) : decodeFrom input =
    (andThen Footer.mk BlockHandle.decodeFrom BlockHandle.decodeFrom input).map Prod.fst := by
  unfold decodeFrom andThen
  cases BlockHandle.decodeFrom input with
  | none => rfl
  | some x => cases h : BlockHandle.decodeFrom x.2 <;> simp [h]

theorem delimits_handles {f : Footer} (hi : f.index.IsSet) (hf : f.filter.IsSet) :
    Delimits (andThen Footer.mk BlockHandle.decodeFrom BlockHandle.decodeFrom) f.handles f :=
  (BlockHandle.delimits_decodeFrom hi).andThen Footer.mk (BlockHandle.delimits_decodeFrom hf)

theorem decodeFrom_handles {f : Footer} (hi : f.index.IsSet) (hf : f.filter.IsSet) (rest : Bytes) :
    decodeFrom (f.handles ++ rest) = some f := by
  rw [decodeFrom_eq_andThen, (delimits_handles hi hf).read]
  rfl

/-- A footer whose handles are cut off is not read. -/
theorem decodeFrom_take_handles {f : Footer} (hi : f.index.IsSet) (hf : f.filter.IsSet) {n : ℕ}
    (hn : n < f.handles.length) : decodeFrom (f.handles.take n) = none := by
  rw [decodeFrom_eq_andThen, (delimits_handles hi hf).cut n hn]
  rfl

/-- The conversions between `int` and `size_t` cancel out: they all keep the lowest 32 bits. -/
theorem paddings_eq (size : ℕ) {n : ℕ} (hn : n ≤ kFixedFooterSize) :
    toInt32 (u32 ((kFixedFooterSize -
      (((size + n : ℕ) : ℤ) - toInt32 (u32 size)) % 2 ^ 64) % 2 ^ 64).toNat) =
        (kFixedFooterSize - n : ℕ) := by
  unfold kFixedFooterSize at *
  have hstart : ∃ k : ℤ, toInt32 (u32 size) = size - k * 2 ^ 32 := by
    unfold toInt32 u32
    split
    · exact ⟨(size / 2 ^ 32 : ℕ), by omega⟩
    · exact ⟨(size / 2 ^ 32 : ℕ) + 1, by omega⟩
  obtain ⟨k, hk⟩ := hstart
  rw [hk, toInt32_of_lt]
  · unfold u32
    omega
  · unfold u32
    omega

theorem appendTo_eq {f : Footer} (hi : f.index.IsSet) (hf : f.filter.IsSet) (dst : Bytes) :
    f.appendTo dst =
      .ok (dst ++ (f.handles ++ List.replicate (kFixedFooterSize - f.handles.length) 0)) := by
  have hpad := paddings_eq dst.length f.length_handles_le
  have hlen : (dst ++ f.index.bytes ++ f.filter.bytes).length = dst.length + f.handles.length := by
    rw [List.append_assoc, List.length_append]
    rfl
  have hnonneg : ¬ ((kFixedFooterSize - f.handles.length : ℕ) : ℤ) < 0 := by omega
  simp only [appendTo, BlockHandle.encodeTo_of_isSet hi, BlockHandle.encodeTo_of_isSet hf,
    Exec.ok_bind, hlen, hpad, hnonneg, ↓reduceIte, Exec.pure_eq, Int.toNat_natCast]
  simp only [handles, List.append_assoc]

/-- **The footer.**  Whatever stands in `dst`, a footer whose handles are set appends exactly
`kFixedFooterSize` bytes; it is read back from them, and no prefix of them that ends inside the four
numbers is read. -/
theorem appendTo_codec {f : Footer} (hi : f.index.IsSet) (hf : f.filter.IsSet) (dst : Bytes) :
    ∃ bytes, f.appendTo dst = .ok (dst ++ bytes) ∧ bytes.length = kFixedFooterSize ∧
      decodeFrom bytes = some f ∧ ∀ n < f.handles.length, decodeFrom (bytes.take n) = none := by
  refine ⟨_, appendTo_eq hi hf dst, (encodeTo_spec hi hf).2, decodeFrom_handles hi hf _, ?_⟩
  intro n hn
  rw [List.take_append_of_le_length hn.le]
  exact decodeFrom_take_handles hi hf hn

/-- Handles with the largest numbers fill all forty bytes. -/
theorem appendTo_codec_largest :
    ∃ bytes, appendTo ⟨⟨2 ^ 64 - 2, 2 ^ 64 - 2⟩, ⟨2 ^ 64 - 2, 2 ^ 64 - 2⟩⟩ [7] =
        .ok ([7] ++ bytes) ∧
      bytes.length = kFixedFooterSize ∧
      decodeFrom bytes = some ⟨⟨2 ^ 64 - 2, 2 ^ 64 - 2⟩, ⟨2 ^ 64 - 2, 2 ^ 64 - 2⟩⟩ ∧
      ∀ n < (handles ⟨⟨2 ^ 64 - 2, 2 ^ 64 - 2⟩, ⟨2 ^ 64 - 2, 2 ^ 64 - 2⟩⟩).length,
        decodeFrom (bytes.take n) = none :=
  appendTo_codec (by unfold BlockHandle.IsSet; decide) (by unfold BlockHandle.IsSet; decide) [7]

/-- What `footer_encoded.data()` passes on of a footer without a zero number: the handles. -/
theorem cString_handles {f : Footer} (hi : 0 ∉ f.index.bytes) (hf : 0 ∉ f.filter.bytes) (n : ℕ) :
    cString (f.handles ++ List.replicate n 0) = f.handles := by
  have h0 : 0 ∉ f.handles := by simp [handles, hi, hf]
  rw [cString_append h0, cString_replicate_zero, List.append_nil]

end Footer

/-! ### File metas -/

/-- `struct FileMeta`; the keys are internal keys. -/
structure FileMeta where
  fileSize : ℕ
  number : ℕ
  smallestKey : Bytes
  largestKey : Bytes
deriving Repr, DecidableEq

namespace FileMeta

/-- `new FileMeta()`. -/
def make : FileMeta := ⟨0, 0, [], []⟩

/-- `PrintFileMeta`: what it reads on the way to its log lines. -/
def print (m : FileMeta) : Exec Unit := do
  let (userKey1, _) ← extractUserKey (.ofString m.smallestKey)
  let (userKey2, _) ← extractUserKey (.ofString m.largestKey)
  let _ ← userKey1.toString
  let _ ← userKey2.toString
  return ()

/-- `PrintFileMeta` goes through if both keys have the eight bytes behind the user key. -/
theorem print_eq_ok {m : FileMeta} {x : Unit} :
    m.print = .ok x ↔ 8 ≤ m.smallestKey.length ∧ 8 ≤ m.largestKey.length := by
  -- a user key whose size has wrapped around is no string
  have hextract : ∀ k : Bytes, ∃ x, extractUserKey (.ofString k) = .ok x ∧
      (8 ≤ k.length → ∃ s, x.1.toString = .ok s) ∧
      (k.length < 8 → x.1.toString = .error .outOfBounds) := by
    intro k
    by_cases h : k.length < 8
    · refine ⟨_, extractUserKey_of_lt h, fun hle => absurd h (not_lt.2 hle), fun _ => if_pos ?_⟩
      simp only [Slice.ofString, List.length_append, List.length_singleton]
      omega
    · refine ⟨_, (extractUserKey_append (not_lt.1 h) [0]).trans (extractUserKey_of_le (not_lt.1 h)),
        fun _ => ⟨_, Slice.toString_ofBytes _⟩, fun hlt => absurd hlt h⟩
  obtain ⟨x₁, h₁, hok₁, hbad₁⟩ := hextract m.smallestKey
  obtain ⟨x₂, h₂, hok₂, hbad₂⟩ := hextract m.largestKey
  simp only [print, h₁, h₂, Exec.ok_bind]
  by_cases hs : m.smallestKey.length < 8
  · simp [hbad₁ hs, not_le.2 hs]
  · obtain ⟨s, hs₁⟩ := hok₁ (not_lt.1 hs)
    by_cases hl : m.largestKey.length < 8
    · simp [hs₁, hbad₂ hl, not_le.2 hl]
    · obtain ⟨s', hs₂⟩ := hok₂ (not_lt.1 hl)
      simp [hs₁, hs₂, not_lt.1 hs, not_lt.1 hl]

/-- The bytes that `EncodeFileMeta` appends to the file. -/
def encode (m : FileMeta) : Bytes :=
  encodeVarint64 m.fileSize ++ encodeVarint64 m.number ++
    encodeVarint64 m.smallestKey.length ++ m.smallestKey ++
    encodeVarint64 m.largestKey.length ++ m.largestKey

/-- `GetVarint64` whose result is not looked at: at the end of the input the variable keeps the
value it had. -/
def getVarint64Or (v : ℕ) (input : Bytes) : ℕ × Bytes := (getVarint64 input).getD (v, input)

/-- `TransToInternalKey(Slice(slice->data(), len))` and `slice->Advance(len)`. -/
def takeKey (slice : Bytes) (len : ℕ) : Exec (Bytes × Bytes) :=
  if slice.length < len then .error .outOfBounds else .ok (slice.take len, slice.drop len)

/-- `DecodeFileMeta`: the meta and the rest of the slice.  `garbage` is what the two uninitialised
length variables happen to hold. -/
def decode (garbage : ℕ) (slice : Bytes) : Exec (FileMeta × Bytes) := do
  let (fileSize, slice) := getVarint64Or 0 slice
  let (number, slice) := getVarint64Or 0 slice
  let (smallestKeyLen, slice) := getVarint64Or garbage slice
  let (smallestKey, slice) ← takeKey slice smallestKeyLen
  let (largestKeyLen, slice) := getVarint64Or garbage slice
  let (largestKey, slice) ← takeKey slice largestKeyLen
  return (⟨fileSize, number, smallestKey, largestKey⟩, slice)

/-- All numbers of the meta have 64 bits. -/
def Fits (m : FileMeta) : Prop :=
  m.fileSize < 2 ^ 64 ∧ m.number < 2 ^ 64 ∧ m.smallestKey.length < 2 ^ 64 ∧
    m.largestKey.length < 2 ^ 64

theorem takeKey_append (s rest : Bytes) : takeKey (s ++ rest) s.length = .ok (s, rest) := by
  simp [takeKey]

theorem getVarint64Or_encode {v : ℕ} (h : v < 2 ^ 64) (w : ℕ) (rest : Bytes) :
    getVarint64Or w (encodeVarint64 v ++ rest) = (v, rest) := by
  rw [getVarint64Or, getVarint64_encode h]; rfl

/-- A file meta is read back from its bytes, whatever follows. -/
theorem decode_encode {m : FileMeta} (h : m.Fits) (garbage : ℕ) (rest : Bytes) :
    decode garbage (m.encode ++ rest) = .ok (m, rest) := by
  obtain ⟨h1, h2, h3, h4⟩ := h
  simp only [decode, encode, List.append_assoc, getVarint64Or_encode h1, getVarint64Or_encode h2,
    getVarint64Or_encode h3, takeKey_append, Exec.ok_bind, getVarint64Or_encode h4, Exec.pure_eq]

/-- **File metas are self-delimiting.**  A list of them is read back from their bytes, one behind
the other, and what follows them is left.  This holds whatever the uninitialised variables of
`DecodeFileMeta` hold. -/
theorem decodeList_encode {metas : List FileMeta} (h : ∀ m ∈ metas, m.Fits) (garbage : ℕ)
    (rest : Bytes) :
    decodeList (decode garbage) metas.length (metas.flatMap encode ++ rest) = .ok (metas, rest) :=
  decodeList_flatMap (fun m hm => decode_encode (h m hm) garbage) rest

/-- The largest numbers, an empty key and a key that looks like a number. -/
theorem decodeList_encode_two :
    decodeList (decode 3) 2
      ([⟨2 ^ 64 - 1, 0, [], [128, 1]⟩, ⟨0, 2 ^ 64 - 1, [255], []⟩].flatMap encode ++ [0]) =
        .ok ([⟨2 ^ 64 - 1, 0, [], [128, 1]⟩, ⟨0, 2 ^ 64 - 1, [255], []⟩], [0]) := by
  have hfits : ∀ m ∈ [(⟨2 ^ 64 - 1, 0, [], [128, 1]⟩ : FileMeta), ⟨0, 2 ^ 64 - 1, [255], []⟩],
      m.Fits := by simp [Fits]
  exact decodeList_encode hfits 3 [0]

end FileMeta

end KoishiDB
