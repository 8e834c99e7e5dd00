import KoishiDB.Base.Versioned
import KoishiDB.Type.Slice
import KoishiDB.Util.Encode
import Mathlib.Data.List.Chain

/-!
# Keys and comparators

`type/key.cc`, `util/util.cc`, the class `LookupKey` of `util/util.h` and the
comparator of `memory/memtable.h`.

An *internal key* is a user key followed by eight bytes that hold the sequence number and the key
type.  A *memtable key* is an internal key and a value, each with its length in front; it is what
a memtable stores.  Both comparators order by user key and, for equal user keys, put the larger
sequence number first: `keyRank` is that order, `internalKeyCompare_create` and
`memtableKeyCompare_create` say that the comparators decide it on well-formed keys.
-/

namespace KoishiDB

/-! ### Internal keys -/

/-- `snapshot << 8 | static_cast<char>(type)`. -/
def tag (snapshot : ℕ) (type : KeyType) : ℕ := u64 (snapshot <<< 8) ||| type.toNat

/-- `CreateInternalKey`. -/
def createInternalKey (userKey : Bytes) (snapshot : ℕ) (type : KeyType) : Bytes :=
  userKey ++ leBytes 8 (tag snapshot type)

/-- `ExtractUserKey`: the user key and the sequence number.  For a slice of fewer than eight bytes
the size of the user key wraps around, and the number is read in front of the slice, where its
value is not known. -/
def extractUserKey (internalKey : Slice) : Exec (Slice × Option ℕ) :=
  if internalKey.size < 8 then
    .ok (⟨internalKey.memory, u64 (internalKey.size + 2 ^ 64 - 8)⟩, none)
  else if internalKey.memory.length < internalKey.size then .error .outOfBounds
  else
    let userKey := internalKey.memory.take (internalKey.size - 8)
    .ok (userKey, some (leNat ((internalKey.memory.drop userKey.length).take 8) >>> 8))

/-- `InternalKeyComparator::Compare`.  The sequence numbers have a say only for equal user keys. -/
def internalKeyCompare (a b : Slice) : Exec ℤ := do
  let (userKey1, seq1) ← extractUserKey a
  let (userKey2, seq2) ← extractUserKey b
  let r ← userKey1.compare userKey2
  if r = 0 then
    match seq1, seq2 with
    | some seq1, some seq2 =>
      if seq1 < seq2 then return 1
      else if seq1 > seq2 then return -1
      else return r
    | _, _ => throw .outOfBounds
  else return r

/-! ### Memtable keys -/

/-- `CreateMemtableKey`. -/
def createMemtableKey (userKey : Bytes) (snapshot : ℕ) (value : Bytes) (keyType : KeyType) :
    Bytes :=
  encodeVarint32 (userKey.length + 8) ++ createInternalKey userKey snapshot keyType ++
    encodeVarint32 value.length ++ value

/-- `ExtractInternalKey`. -/
def extractInternalKey (memtableKey : Bytes) : Exec Bytes := do
  let (internalKeyLen, memtableKey) ← getVarint32 memtableKey
  let (internalKey, _) ← getFixedBytes memtableKey internalKeyLen
  return internalKey

/-- `ExtractValueFromMemtable`. -/
def extractValueFromMemtable (memtableKey : Bytes) : Exec Bytes := do
  let (internalKeyLen, memtableKey) ← getVarint32 memtableKey
  let memtableKey ← advance memtableKey internalKeyLen
  let (valueLen, memtableKey) ← getVarint32 memtableKey
  if memtableKey.length < valueLen then throw .outOfBounds
  return memtableKey.take valueLen

/-- `LookupKey`: a memtable key with its offsets, which are 32-bit numbers. -/
structure LookupKey where
  /-- The memtable key. -/
  data : Bytes
  /-- Where the internal key starts. -/
  kstart : ℕ
  /-- Where the internal key ends. -/
  kend : ℕ
  /-- Where the value starts. -/
  vstart : ℕ
deriving Repr, DecidableEq

namespace LookupKey

/-- The constructor of `LookupKey`. -/
def make (memtableKey : Bytes) : Exec LookupKey := do
  let (internalKeyLen, tmp) ← getVarint32 memtableKey
  let kstart := u32 (memtableKey.length - tmp.length)
  let kend := u32 (kstart + internalKeyLen)
  let tmp ← advance tmp internalKeyLen
  let (_, tmp) ← getVarint32 tmp
  return { data := memtableKey, kstart, kend, vstart := u32 (memtableKey.length - tmp.length) }

/-- The bytes `[from, from + len)` of the memtable key. -/
def sub (k : LookupKey) (start len : ℕ) : Exec Bytes :=
  if start + len ≤ k.data.length then .ok ((k.data.drop start).take len) else .error .outOfBounds

/-- `LookupKey::UserKey`; the length is computed in 32 bits. -/
def userKey (k : LookupKey) : Exec Bytes := k.sub k.kstart (u32 (k.kend + 2 ^ 32 - k.kstart - 8))

/-- The eight bytes in front of the end of the internal key. -/
def tagBytes (k : LookupKey) : Exec Bytes :=
  if k.kend < 8 then .error .outOfBounds else k.sub (k.kend - 8) 8

/-- `LookupKey::GetSequence`. -/
def getSequence (k : LookupKey) : Exec ℕ := do
  let t ← k.tagBytes
  return leNat t >>> 8

/-- `LookupKey::Value`. -/
def value (k : LookupKey) : Exec Bytes := k.sub k.vstart (k.data.length - k.vstart)

/-- `LookupKey::GetKeyType`: everything but a value counts as a deletion. -/
def getKeyType (k : LookupKey) : Exec KeyType := do
  let t ← k.tagBytes
  return if leNat t &&& 0xff = 0x01 then .kTypeValue else .kTypeDeletion

end LookupKey

/-- `MemtableKeyComparator::Compare`. -/
def memtableKeyCompare (memtableKey1 memtableKey2 : Bytes) : Exec ℤ := do
  let key1 ← LookupKey.make memtableKey1
  let key2 ← LookupKey.make memtableKey2
  let userKey1 ← key1.userKey
  let userKey2 ← key2.userKey
  let s1 ← key1.getSequence
  let s2 ← key2.getSequence
  let r := sliceCompare userKey1 userKey2
  if r = 0 then
    if s1 = s2 then return 0
    else if s1 > s2 then return -1
    else return 1
  else return r

/-! ### The order of keys -/

/-- Keys ordered by user key and, for equal user keys, by decreasing sequence number. -/
abbrev KeyOrder := Bytes ×ₗ ℕᵒᵈ

/-- The place of a user key and a sequence number in that order. -/
def keyRank (userKey : Bytes) (seq : ℕ) : KeyOrder := Versioned.place userKey seq

theorem keyRank_lt {u u' : Bytes} {n n' : ℕ} :
    keyRank u n < keyRank u' n' ↔ u < u' ∨ u = u' ∧ n' < n :=
  Versioned.place_lt

theorem keyRank_inj {u u' : Bytes} {n n' : ℕ} :
    keyRank u n = keyRank u' n' ↔ u = u' ∧ n = n' :=
  Versioned.place_inj

/-- The part of a sequence number that a tag has room for. -/
def storedSeq (n : ℕ) : ℕ := n % 2 ^ 56

theorem storedSeq_of_lt {n : ℕ} (h : n < 2 ^ 56) : storedSeq n = n := Nat.mod_eq_of_lt h

theorem storedSeq_lt (n : ℕ) : storedSeq n < 2 ^ 56 := Nat.mod_lt _ (by decide)

theorem tag_eq (n : ℕ) (t : KeyType) : tag n t = storedSeq n * 2 ^ 8 + t.toNat := by
  have h : u64 (n <<< 8) = storedSeq n <<< 8 := by
    simp only [u64, storedSeq, Nat.shiftLeft_eq]
    omega
  rw [tag, h, ← Nat.shiftLeft_add_eq_or_of_lt t.toNat_lt, Nat.shiftLeft_eq]

theorem leNat_tag (n : ℕ) (t : KeyType) :
    leNat (leBytes 8 (tag n t)) = storedSeq n * 2 ^ 8 + t.toNat := by
  have h1 := storedSeq_lt n
  have h2 := t.toNat_lt
  rw [leNat_leBytes, tag_eq]
  omega

theorem leNat_tag_shift (n : ℕ) (t : KeyType) :
    leNat (leBytes 8 (tag n t)) >>> 8 = storedSeq n := by
  have := t.toNat_lt
  rw [leNat_tag, Nat.shiftRight_eq_div_pow]
  omega

@[simp] theorem length_createInternalKey (u : Bytes) (n : ℕ) (t : KeyType) :
    (createInternalKey u n t).length = u.length + 8 := by
  simp [createInternalKey]

/-- The user key and the sequence number of a key of at least eight bytes. -/
theorem extractUserKey_of_le {k : Bytes} (h : 8 ≤ k.length) :
    extractUserKey k =
      .ok (k.take (k.length - 8), leNat (k.drop (k.take (k.length - 8)).length) >>> 8) := by
  have hdrop : (k.drop (k.take (k.length - 8)).length).length ≤ 8 := by
    rw [List.length_drop, List.length_take_of_le (Nat.sub_le _ _)]
    omega
  have hsize : ¬ (Slice.ofBytes k).size < 8 := not_lt.2 h
  have hin : ¬ (Slice.ofBytes k).memory.length < (Slice.ofBytes k).size := lt_irrefl _
  rw [extractUserKey, if_neg hsize, if_neg hin]
  simp only [Slice.size_ofBytes, Slice.memory_ofBytes, List.take_of_length_le hdrop]

/-- The user key of a shorter slice has a size that has wrapped around. -/
theorem extractUserKey_of_lt {s : Slice} (h : s.size < 8) :
    extractUserKey s = .ok (⟨s.memory, s.size + 2 ^ 64 - 8⟩, none) := by
  rw [extractUserKey, if_pos h, u64_of_lt (by omega)]

/-- What stands behind a slice of at least eight bytes does not matter. -/
theorem extractUserKey_append {k : Bytes} (h : 8 ≤ k.length) (rest : Bytes) :
    extractUserKey ⟨k ++ rest, k.length⟩ = extractUserKey k := by
  have hlen : (k.take (k.length - 8)).length = k.length - 8 :=
    List.length_take_of_le (Nat.sub_le _ _)
  have htake : (k ++ rest).take (k.length - 8) = k.take (k.length - 8) :=
    List.take_append_of_le_length (Nat.sub_le _ _)
  have hlast : (k.drop (k.length - 8)).length = 8 := by
    rw [List.length_drop]
    omega
  have hin : ¬ (k ++ rest).length < k.length := by
    rw [List.length_append]
    omega
  rw [extractUserKey, if_neg (not_lt.2 h), if_neg hin, extractUserKey_of_le h]
  simp only [htake, hlen, List.drop_append_of_le_length (Nat.sub_le k.length 8),
    List.take_left' hlast]

/-- A string of at least eight bytes is taken apart as its bytes are. -/
theorem extractUserKey_ofString {k : Bytes} (h : 8 ≤ k.length) :
    extractUserKey (.ofString k) = extractUserKey k :=
  extractUserKey_append h [0]

theorem internalKeyCompare_ofString {k : Bytes} (h : 8 ≤ k.length) (b : Slice) :
    internalKeyCompare (.ofString k) b = internalKeyCompare k b := by
  rw [internalKeyCompare, internalKeyCompare, extractUserKey_ofString h]

/-- `ExtractUserKey` gives back the user key and the stored part of the sequence number. -/
@[simp] theorem extractUserKey_create (u : Bytes) (n : ℕ) (t : KeyType) :
    extractUserKey (createInternalKey u n t) = .ok (u, storedSeq n) := by
  have htake : (createInternalKey u n t).take ((createInternalKey u n t).length - 8) = u := by
    simp [createInternalKey]
  rw [extractUserKey_of_le (by simp), htake]
  simp [createInternalKey, leNat_tag_shift]

/-- `InternalKeyComparator` orders by what `ExtractUserKey` finds. -/
theorem internalKeyCompare_of_extract {a b : Slice} {u u' : Bytes} {n n' : ℕ}
    (ha : extractUserKey a = .ok (u, n)) (hb : extractUserKey b = .ok (u', n')) :
    internalKeyCompare a b = .ok (threeWay (keyRank u n) (keyRank u' n')) := by
  simp only [internalKeyCompare, ha, hb, Exec.ok_bind, Slice.compare_ofBytes,
    sliceCompare_eq_threeWay, threeWay_eq_zero, Exec.pure_eq]
  simp only [threeWay, keyRank_lt, keyRank_inj]
  rcases lt_trichotomy u u' with h | h | h
  · simp [h, h.ne]
  · subst h
    rcases lt_trichotomy n n' with hn | hn | hn
    · simp [hn, hn.not_gt, hn.ne]
    · simp [hn]
    · simp [hn, hn.not_gt]
  · simp [h.not_gt, h.ne']

/-- `InternalKeyComparator` decides the order of keys. -/
theorem internalKeyCompare_create (u u' : Bytes) (n n' : ℕ) (t t' : KeyType) :
    internalKeyCompare (createInternalKey u n t) (createInternalKey u' n' t') =
      .ok (threeWay (keyRank u (storedSeq n)) (keyRank u' (storedSeq n'))) :=
  internalKeyCompare_of_extract (extractUserKey_create u n t) (extractUserKey_create u' n' t')

/-! ### Keys of at least eight bytes -/

/-- The place of an internal key in the order of keys. -/
def internalKeyRank (key : Bytes) : KeyOrder :=
  match extractUserKey key with
  | .ok (userKey, seq) => keyRank userKey.bytes (seq.getD 0)
  | .error _ => keyRank [] 0

theorem internalKeyRank_create (u : Bytes) (n : ℕ) (t : KeyType) :
    internalKeyRank (createInternalKey u n t) = keyRank u (storedSeq n) := by
  simp [internalKeyRank]

theorem internalKeyRank_of_le {k : Bytes} (h : 8 ≤ k.length) : internalKeyRank k =
    keyRank (k.take (k.length - 8)) (leNat (k.drop (k.take (k.length - 8)).length) >>> 8) := by
  simp only [internalKeyRank, extractUserKey_of_le h, Slice.bytes_ofBytes, Option.getD_some]

/-- The comparator decides the order of all keys of at least eight bytes. -/
theorem internalKeyCompare_eq {a b : Bytes} (ha : 8 ≤ a.length) (hb : 8 ≤ b.length) :
    internalKeyCompare a b = .ok (threeWay (internalKeyRank a) (internalKeyRank b)) := by
  rw [internalKeyCompare_of_extract (extractUserKey_of_le ha) (extractUserKey_of_le hb),
    internalKeyRank_of_le ha, internalKeyRank_of_le hb]

/-- All that can go wrong in a comparison is a read outside of the keys. -/
theorem internalKeyCompare_error {a b : Slice} {e : Fault} (h : internalKeyCompare a b = .error e) :
    e = .outOfBounds := by
  have hextract : ∀ k, extractUserKey k = .error e → e = .outOfBounds := by
    intro k hk
    unfold extractUserKey at hk
    split_ifs at hk
    cases hk; rfl
  rcases Exec.bind_eq_error.1 h with h | ⟨⟨u, n⟩, -, h⟩
  · exact hextract a h
  rcases Exec.bind_eq_error.1 h with h | ⟨⟨u', n'⟩, -, h⟩
  · exact hextract b h
  rcases Exec.bind_eq_error.1 h with h | ⟨r, -, h⟩
  · exact Slice.compare_error h
  · split at h
    · cases n with
      | none => cases h; rfl
      | some n =>
        cases n' with
        | none => cases h; rfl
        | some n' =>
          dsimp only at h
          split_ifs at h <;> cases h
    · cases h

/-- Two keys that are equal for the comparator have their eight bytes. -/
theorem length_of_compare {a b : Slice} (ha : a.memory.length ≤ a.size + 1)
    (hb : b.memory.length ≤ b.size + 1) (h : internalKeyCompare a b = .ok 0) :
    8 ≤ a.size ∧ 8 ≤ b.size := by
  -- the size of a user key that has wrapped around is larger than the memory
  have hextract : ∀ {k : Slice} {x}, k.memory.length ≤ k.size + 1 → extractUserKey k = .ok x →
      x.1.size ≤ x.1.memory.length → 8 ≤ k.size := by
    intro k x hk hx hle
    by_contra hlt
    obtain ⟨wrapped, hw⟩ : ∃ n, n = k.size + 2 ^ 64 - 8 := ⟨_, rfl⟩
    rw [extractUserKey_of_lt (not_le.1 hlt), ← hw] at hx
    cases hx
    have hle : wrapped ≤ k.memory.length := hle
    omega
  obtain ⟨⟨u, n⟩, hu, h⟩ := Exec.bind_eq_ok.1 h
  obtain ⟨⟨u', n'⟩, hu', h⟩ := Exec.bind_eq_ok.1 h
  obtain ⟨r, hr, h⟩ := Exec.bind_eq_ok.1 h
  have hzero : r = 0 := by
    by_contra hne
    rw [if_neg hne] at h
    exact hne (Except.ok.inj h)
  rw [hzero] at hr
  obtain ⟨-, hle, hle'⟩ := Slice.size_of_compare hr
  exact ⟨hextract ha hu hle, hextract hb hu' hle'⟩

section Order

variable {a b c : Bytes} (ha : 8 ≤ a.length) (hb : 8 ≤ b.length)
include ha hb

theorem compare_eq_one_of_lt (h : internalKeyCompare a b = .ok (-1)) :
    internalKeyCompare b a = .ok 1 := by
  rw [internalKeyCompare_eq ha hb, Except.ok.injEq, threeWay_eq_neg_one] at h
  rw [internalKeyCompare_eq hb ha, Except.ok.injEq, threeWay_eq_one]
  exact h

/-- A key behind one that is not smaller than the target is not smaller either. -/
theorem compare_ge_of_lt (hc : 8 ≤ c.length) {r : ℤ} (h : internalKeyCompare a b = .ok (-1))
    (har : internalKeyCompare a c = .ok r) (hr : r ≠ -1) : internalKeyCompare b c = .ok 1 := by
  rw [internalKeyCompare_eq ha hb, Except.ok.injEq, threeWay_eq_neg_one] at h
  rw [internalKeyCompare_eq ha hc, Except.ok.injEq] at har
  rw [← har, ne_eq, threeWay_eq_neg_one, not_lt] at hr
  rw [internalKeyCompare_eq hb hc, Except.ok.injEq, threeWay_eq_one]
  exact hr.trans_lt h

end Order

/-- Keys that increase from one to the next increase from each to all behind it. -/
theorem pairwise_of_isChain {α : Type} {key : α → Bytes} {l : List α}
    (hlen : ∀ x ∈ l, 8 ≤ (key x).length)
    (h : l.IsChain fun x y => internalKeyCompare (key x) (key y) = .ok (-1)) :
    l.Pairwise fun x y => internalKeyCompare (key x) (key y) = .ok (-1) := by
  have hlt : ∀ x ∈ l, ∀ y ∈ l, internalKeyCompare (key x) (key y) = .ok (-1) ↔
      internalKeyRank (key x) < internalKeyRank (key y) := by
    intro x hx y hy
    rw [internalKeyCompare_eq (hlen x hx) (hlen y hy), Except.ok.injEq, threeWay_eq_neg_one]
  have htrans : IsTrans α fun x y => internalKeyRank (key x) < internalKeyRank (key y) :=
    ⟨fun _ _ _ => lt_trans⟩
  have hrank : l.IsChain fun x y => internalKeyRank (key x) < internalKeyRank (key y) :=
    h.imp_of_mem_imp fun x y hx hy => (hlt x hx y hy).1
  exact hrank.pairwise.imp_of_mem fun hx hy hxy => (hlt _ hx _ hy).2 hxy

/-! ### Reading a memtable key -/

/-- The keys and values whose memtable key is shorter than `2 ^ 32` bytes, so that its offsets have
32 bits. -/
def KeyFits (userKey value : Bytes) : Prop :=
  (encodeVarint32 (userKey.length + 8)).length + (userKey.length + 8) +
    ((encodeVarint32 value.length).length + value.length) < 2 ^ 32

instance KeyFits.decidable (userKey value : Bytes) : Decidable (KeyFits userKey value) :=
  inferInstanceAs (Decidable (_ < _))

theorem keyFits_of_length {u v : Bytes} (h : u.length + v.length + 18 < 2 ^ 32) : KeyFits u v := by
  have hk := length_encodeVarint32_le (u.length + 8)
  have hv := length_encodeVarint32_le v.length
  unfold KeyFits
  omega

/-- The offsets that `LookupKey` finds in a memtable key. -/
def lookupOf (u : Bytes) (n : ℕ) (v : Bytes) (t : KeyType) : LookupKey where
  data := createMemtableKey u n v t
  kstart := (encodeVarint32 (u.length + 8)).length
  kend := (encodeVarint32 (u.length + 8)).length + (u.length + 8)
  vstart := (encodeVarint32 (u.length + 8)).length + (u.length + 8) +
    (encodeVarint32 v.length).length

theorem KeyFits.key_lt {u v : Bytes} (h : KeyFits u v) : u.length + 8 < 2 ^ 32 := by
  unfold KeyFits at h
  omega

theorem KeyFits.value_lt {u v : Bytes} (h : KeyFits u v) : v.length < 2 ^ 32 := by
  unfold KeyFits at h
  omega

/-- Shorter keys and values fit as well. -/
theorem KeyFits.mono {u u' v v' : Bytes} (h : KeyFits u v) (hu : u'.length ≤ u.length)
    (hv : v'.length ≤ v.length) : KeyFits u' v' := by
  have h1 := length_encodeVarint32_mono (Nat.add_le_add_right hu 8) h.key_lt
  have h2 := length_encodeVarint32_mono hv h.value_lt
  unfold KeyFits at h ⊢
  omega

theorem getVarint32_createMemtableKey {u : Bytes} (n : ℕ) (v : Bytes) (t : KeyType)
    (hu : u.length + 8 < 2 ^ 32) :
    getVarint32 (createMemtableKey u n v t) =
      .ok (u.length + 8, createInternalKey u n t ++ (encodeVarint32 v.length ++ v)) := by
  rw [createMemtableKey, List.append_assoc, List.append_assoc, getVarint32_encode hu]

theorem extractInternalKey_create {u : Bytes} (n : ℕ) (v : Bytes) (t : KeyType)
    (hu : u.length + 8 < 2 ^ 32) :
    extractInternalKey (createMemtableKey u n v t) = .ok (createInternalKey u n t) := by
  rw [extractInternalKey, getVarint32_createMemtableKey n v t hu]
  have hfix : getFixedBytes (createInternalKey u n t ++ (encodeVarint32 v.length ++ v))
      (u.length + 8) = .ok (createInternalKey u n t, encodeVarint32 v.length ++ v) := by
    rw [← length_createInternalKey u n t]
    simp only [getFixedBytes, List.take_left, List.drop_left]
    rw [Exec.require_of (by simp), Exec.ok_bind, Exec.pure_eq]
  simp only [Exec.ok_bind, hfix, Exec.pure_eq]

theorem advance_createInternalKey (u : Bytes) (n : ℕ) (t : KeyType) (rest : Bytes) :
    advance (createInternalKey u n t ++ rest) (u.length + 8) = .ok rest := by
  rw [← length_createInternalKey u n t, advance_append]

section

variable {u v : Bytes} (n : ℕ) (t : KeyType) (h : KeyFits u v)
include h

theorem extractValueFromMemtable_create :
    extractValueFromMemtable (createMemtableKey u n v t) = .ok v := by
  rw [extractValueFromMemtable, getVarint32_createMemtableKey n v t h.key_lt]
  simp [advance_createInternalKey, getVarint32_encode h.value_lt]

theorem lookupKey_make_create :
    LookupKey.make (createMemtableKey u n v t) = .ok (lookupOf u n v t) := by
  have hv : getVarint32 (encodeVarint32 v.length ++ v) = .ok (v.length, v) :=
    getVarint32_encode h.value_lt v
  have hk := length_encodeVarint32_le (u.length + 8)
  have hw := length_encodeVarint32_le v.length
  unfold KeyFits at h
  rw [LookupKey.make, getVarint32_createMemtableKey n v t (by omega)]
  simp only [Exec.ok_bind, advance_createInternalKey, hv, Exec.pure_eq, lookupOf,
    Except.ok.injEq, LookupKey.mk.injEq, true_and, u32]
  simp only [createMemtableKey, List.length_append, length_createInternalKey]
  refine ⟨?_, ?_, ?_⟩ <;> omega

theorem lookupOf_userKey : (lookupOf u n v t).userKey = .ok u := by
  have hk := length_encodeVarint32_le (u.length + 8)
  unfold KeyFits at h
  have hlen : u32 ((lookupOf u n v t).kend + 2 ^ 32 - (lookupOf u n v t).kstart - 8) =
      u.length := by
    simp only [lookupOf, u32]
    omega
  rw [LookupKey.userKey, hlen, LookupKey.sub]
  simp [lookupOf, createMemtableKey, createInternalKey]

omit h in
theorem lookupOf_value : (lookupOf u n v t).value = .ok v := by
  have hlen : (createMemtableKey u n v t).length = (lookupOf u n v t).vstart + v.length := by
    simp only [createMemtableKey, lookupOf, List.length_append, length_createInternalKey]
  have hdrop : (createMemtableKey u n v t).drop (lookupOf u n v t).vstart = v := by
    apply List.drop_left'
    simp only [lookupOf, List.length_append, length_createInternalKey]
  have hdata : (lookupOf u n v t).data = createMemtableKey u n v t := rfl
  simp only [LookupKey.value, LookupKey.sub, hdata, hlen, Nat.add_sub_cancel_left, le_refl, hdrop,
    ↓reduceIte, List.take_length]

omit h in
theorem lookupOf_tagBytes : (lookupOf u n v t).tagBytes = .ok (leBytes 8 (tag n t)) := by
  have hdrop : ((createMemtableKey u n v t).drop
      ((encodeVarint32 (u.length + 8)).length + (u.length + 8) - 8)).take 8 =
      leBytes 8 (tag n t) := by
    have : (encodeVarint32 (u.length + 8)).length + (u.length + 8) - 8 =
        (encodeVarint32 (u.length + 8) ++ u).length := by
      rw [List.length_append]
      omega
    rw [this, createMemtableKey, createInternalKey]
    simp only [← List.append_assoc]
    rw [List.append_assoc _ _ v, List.append_assoc _ (leBytes 8 _), List.drop_left]
    exact List.take_left' (by simp)
  have hlen : ¬ (encodeVarint32 (u.length + 8)).length + (u.length + 8) < 8 := by omega
  have hle : (encodeVarint32 (u.length + 8)).length + (u.length + 8) - 8 + 8 ≤
      (createMemtableKey u n v t).length := by
    simp [createMemtableKey]
    omega
  simp [LookupKey.tagBytes, LookupKey.sub, lookupOf, hdrop, hlen, hle]

omit h in
theorem lookupOf_getSequence : (lookupOf u n v t).getSequence = .ok (storedSeq n) := by
  simp [LookupKey.getSequence, lookupOf_tagBytes, leNat_tag_shift]

omit h in
theorem lookupOf_getKeyType : (lookupOf u n v t).getKeyType = .ok t := by
  have hand : (storedSeq n * 2 ^ 8 + t.toNat) &&& 0xff = t.toNat := by
    have hmod := Nat.and_two_pow_sub_one_eq_mod (storedSeq n * 2 ^ 8 + t.toNat) 8
    have hlt := t.toNat_lt
    change _ &&& (2 ^ 8 - 1) = _
    omega
  simp only [LookupKey.getKeyType, lookupOf_tagBytes, Exec.ok_bind, leNat_tag, hand]
  cases t <;> rfl

end

/-- `MemtableKeyComparator` decides the order of keys. -/
theorem memtableKeyCompare_create {u u' v v' : Bytes} (n n' : ℕ) (t t' : KeyType)
    (h : KeyFits u v) (h' : KeyFits u' v') :
    memtableKeyCompare (createMemtableKey u n v t) (createMemtableKey u' n' v' t') =
      .ok (threeWay (keyRank u (storedSeq n)) (keyRank u' (storedSeq n'))) := by
  simp only [memtableKeyCompare, lookupKey_make_create n t h, lookupKey_make_create n' t' h',
    lookupOf_userKey n t h, lookupOf_userKey n' t' h', lookupOf_getSequence n t,
    lookupOf_getSequence n' t', Exec.ok_bind, sliceCompare_eq_threeWay, threeWay_eq_zero,
    Exec.pure_eq]
  simp only [threeWay, keyRank_lt, keyRank_inj]
  rcases lt_trichotomy u u' with hu | hu | hu
  · simp [hu, hu.ne]
  · subst hu
    rcases lt_trichotomy (storedSeq n) (storedSeq n') with hn | hn | hn
    · simp [hn.not_gt, hn.ne]
    · simp [hn]
    · simp [hn, hn.ne']
  · simp [hu.not_gt, hu.ne']

end KoishiDB
