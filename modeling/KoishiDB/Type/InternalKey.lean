import KoishiDB.Type.Key

/-!
# Internal key objects

The class `InternalKey` of `type/key.h`.  `TransToInternalKey` makes an object from an encoded key;
the file metas are made that way.  The constructor `InternalKey(user_key, sequence, type)` appends
`std::to_string(tag)`, the decimal digits of the tag, where `CreateInternalKey` stores its eight
bytes.

The last byte of such an object is a digit, so `ExtractUserKey` takes it for the highest byte of the
sequence number (`extractUserKey_concat`) and finds one from `48 * 2 ^ 48` on.

* `make_ne_create` : no object made by that constructor is the encoded key, is taken apart into its
  user key and sequence number, or is ordered as the encoded keys are.
-/

namespace KoishiDB

/-- `std::to_string` of an unsigned number. -/
def toStringBytes (n : ℕ) : Bytes := (Nat.toDigits 10 n).map fun c => UInt8.ofNat c.toNat

/-- `class InternalKey`. -/
structure InternalKey where
  rep : Bytes
deriving Repr, DecidableEq

namespace InternalKey

/-- `InternalKey(user_key, sequence, type)`. -/
def make (userKey : Bytes) (sequence : ℕ) (type : KeyType) : InternalKey :=
  ⟨userKey ++ toStringBytes (tag sequence type)⟩

/-- `InternalKey::ToSlice`. -/
def toSlice (k : InternalKey) : Slice := .ofString k.rep

/-- `TransToInternalKey`. -/
def transToInternalKey (key : Bytes) : InternalKey := ⟨key⟩

/-- `InternalKeyComparator::Compare` of two objects. -/
def compare (a b : InternalKey) : Exec ℤ := internalKeyCompare a.toSlice b.toSlice

/-- Objects made from encoded keys are ordered as the keys are. -/
theorem compare_transToInternalKey (u u' : Bytes) (n n' : ℕ) (t t' : KeyType) :
    compare (transToInternalKey (createInternalKey u n t))
        (transToInternalKey (createInternalKey u' n' t')) =
      .ok (threeWay (keyRank u (storedSeq n)) (keyRank u' (storedSeq n'))) := by
  have hextract : ∀ (u : Bytes) (n : ℕ) (t : KeyType),
      extractUserKey (transToInternalKey (createInternalKey u n t)).toSlice =
        .ok (u, storedSeq n) := by
    intro u n t
    have hlen : 8 ≤ (createInternalKey u n t).length := by simp
    exact (extractUserKey_ofString hlen).trans (extractUserKey_create u n t)
  exact internalKeyCompare_of_extract (hextract u n t) (hextract u' n' t')

/-! ### Decimal digits -/

/-- The last byte of a decimal number is its last digit. -/
theorem toStringBytes_eq_concat (n : ℕ) :
    ∃ front, toStringBytes n = front ++ [UInt8.ofNat (48 + n % 10)] := by
  rw [toStringBytes, Nat.toDigits_eq_if (by decide)]
  split
  · rename_i h
    exact ⟨[], by simp [Nat.toNat_digitChar_of_lt_ten h, Nat.mod_eq_of_lt h]⟩
  · refine ⟨(Nat.toDigits 10 (n / 10)).map fun c => UInt8.ofNat c.toNat, ?_⟩
    rw [List.map_append, List.map_singleton, Nat.toNat_digitChar_of_lt_ten (by omega)]

theorem lt_of_length_toStringBytes {n k : ℕ} (hk : 0 < k) (h : (toStringBytes n).length ≤ k) :
    n < 10 ^ k := by
  rw [toStringBytes, List.length_map] at h
  exact (Nat.length_toDigits_le_iff (by decide) hk).1 h

/-! ### What is read of such a key -/

/-- The last byte of a key is the highest byte of its sequence number. -/
theorem extractUserKey_concat {front : Bytes} (b : UInt8) (h : 7 ≤ front.length) :
    ∃ (userKey : Bytes) (seq : ℕ), extractUserKey ↑(front ++ [b]) = .ok (userKey, seq) ∧
      userKey.length = front.length - 7 ∧ seq / 2 ^ 48 = b.toNat := by
  have hlen : (front ++ [b]).length = front.length + 1 := by simp
  refine ⟨_, _, extractUserKey_of_le (by omega), ?_, ?_⟩
  · rw [List.length_take_of_le (by omega), hlen]
    omega
  · have hle : front.length - 7 ≤ front.length := by omega
    have hlt := leNat_lt (front.drop (front.length - 7))
    have hseven : (front.drop (front.length - 7)).length = 7 := by
      rw [List.length_drop]
      omega
    rw [List.length_take_of_le (by omega), hlen, show front.length + 1 - 8 = front.length - 7 by
      omega, List.drop_append_of_le_length hle, leNat_concat, hseven, Nat.shiftRight_eq_div_pow]
    rw [hseven] at hlt
    omega

variable {u : Bytes} {n : ℕ} {t : KeyType}

/-- What `ExtractUserKey` finds in an object whose length suffices: the user key is what is left in
front of eight bytes, and the highest byte of the sequence number is the last digit of the tag. -/
theorem extractUserKey_make {userKey : Bytes} {seq : ℕ}
    (h : extractUserKey (make u n t).toSlice = .ok (userKey, seq)) :
    userKey.length + 8 = u.length + (toStringBytes (tag n t)).length ∧
      seq / 2 ^ 48 = 48 + tag n t % 10 := by
  obtain ⟨front, hfront⟩ := toStringBytes_eq_concat (tag n t)
  have hrep : (make u n t).rep = (u ++ front) ++ [UInt8.ofNat (48 + tag n t % 10)] := by
    rw [make, hfront, List.append_assoc]
  have hlong : 8 ≤ (make u n t).rep.length := by
    by_contra hlt
    rw [extractUserKey_of_lt (not_le.1 hlt), Except.ok.injEq, Prod.mk.injEq] at h
    cases h.2
  rw [toSlice, extractUserKey_ofString hlong] at h
  rw [hrep] at h hlong
  have hfl : 7 ≤ (u ++ front).length := by
    rw [List.length_append, List.length_singleton] at hlong
    omega
  obtain ⟨userKey', seq', heq, hlen, hseq⟩ := extractUserKey_concat _ hfl
  cases h.symm.trans heq
  rw [toNat_ofNat (by omega)] at hseq
  refine ⟨?_, hseq⟩
  rw [hfront, List.length_append, List.length_singleton]
  rw [List.length_append] at hlen hfl
  omega

theorem extractUserKey_make_ne (h : n < 2 ^ 56) :
    extractUserKey (make u n t).toSlice ≠ .ok (u, n) := by
  intro hread
  obtain ⟨hlen, hseq⟩ := extractUserKey_make hread
  -- the user key is right only for a tag of eight digits, whose sequence number is too small
  have htag : tag n t < 10 ^ 8 := lt_of_length_toStringBytes (by decide) (by omega)
  rw [tag_eq, storedSeq_of_lt h] at htag
  omega

/-- Objects that differ in their key types only are not equal in the order, as their tags end in
different digits. -/
theorem compare_make_ne (n : ℕ) {t' : KeyType} (ht : t ≠ t') :
    compare (make u n t) (make u n t') ≠ .ok 0 := by
  intro hzero
  have hmemory : ∀ k : InternalKey, k.toSlice.memory.length ≤ k.toSlice.size + 1 := by
    simp [toSlice, Slice.ofString]
  obtain ⟨hlong, hlong'⟩ := length_of_compare (hmemory _) (hmemory _) hzero
  have hread := (extractUserKey_ofString hlong).trans (extractUserKey_of_le hlong)
  have hread' := (extractUserKey_ofString hlong').trans (extractUserKey_of_le hlong')
  change internalKeyCompare (.ofString (make u n t).rep) (.ofString (make u n t').rep) = _ at hzero
  rw [internalKeyCompare_of_extract hread hread', Except.ok.injEq, threeWay_eq_zero,
    keyRank_inj] at hzero
  have hdigit := (extractUserKey_make hread).2
  have hdigit' := (extractUserKey_make hread').2
  rw [hzero.2, hdigit', tag_eq, tag_eq] at hdigit
  cases t <;> cases t' <;> simp only [KeyType.toNat] at hdigit
  · exact ht rfl
  · omega
  · omega
  · exact ht rfl

/-- **The constructor agrees with `CreateInternalKey` for no key.**  Its bytes are others,
`ExtractUserKey` does not give back the user key and the sequence number, and there is an object
that the comparator orders differently from the encoded keys. -/
theorem make_ne_create (u : Bytes) {n : ℕ} (h : n < 2 ^ 56) (t : KeyType) :
    (make u n t).rep ≠ createInternalKey u n t ∧
      extractUserKey (make u n t).toSlice ≠ .ok (u, n) ∧
      ∃ u' n' t', n' < 2 ^ 56 ∧ compare (make u n t) (make u' n' t') ≠
        internalKeyCompare (createInternalKey u n t) (createInternalKey u' n' t') := by
  have hread : extractUserKey (make u n t).toSlice ≠ .ok (u, n) := extractUserKey_make_ne h
  refine ⟨?_, hread, ?_⟩
  · intro heq
    rw [toSlice, heq, extractUserKey_ofString (by simp), extractUserKey_create,
      storedSeq_of_lt h] at hread
    exact hread rfl
  · obtain ⟨t', ht⟩ : ∃ t', t ≠ t' := by
      cases t
      · exact ⟨.kTypeDeletion, by decide⟩
      · exact ⟨.kTypeValue, by decide⟩
    refine ⟨u, n, t', h, ?_⟩
    have hsame : internalKeyCompare (createInternalKey u n t) (createInternalKey u n t') =
        .ok 0 := by
      rw [internalKeyCompare_create, threeWay_eq_zero.2 rfl]
    rw [hsame]
    exact compare_make_ne n ht

/-- The user key `a` with the sequence number 1. -/
theorem make_ne_create_a :
    (make [97] 1 .kTypeValue).rep ≠ createInternalKey [97] 1 .kTypeValue ∧
      extractUserKey (make [97] 1 .kTypeValue).toSlice ≠ .ok (([97] : Bytes), some 1) ∧
      ∃ u' n' t', n' < 2 ^ 56 ∧ compare (make [97] 1 .kTypeValue) (make u' n' t') ≠
        internalKeyCompare (createInternalKey [97] 1 .kTypeValue) (createInternalKey u' n' t') :=
  make_ne_create [97] (by decide) .kTypeValue

/-- The key `a` with the sequence number 1 is made as `a257`, which is too short: the size of its
user key wraps around. -/
theorem make_a_not_create :
    (make [97] 1 .kTypeValue).rep = [97, 50, 53, 55] ∧
      createInternalKey [97] 1 .kTypeValue = [97, 1, 1, 0, 0, 0, 0, 0, 0] ∧
      extractUserKey (make [97] 1 .kTypeValue).toSlice =
        .ok (⟨[97, 50, 53, 55, 0], 2 ^ 64 - 4⟩, none) ∧
      ¬ ∀ (u : Bytes) (n : ℕ) (t : KeyType), n < 2 ^ 56 →
        (make u n t).rep = createInternalKey u n t ∧
        extractUserKey (make u n t).toSlice = .ok (u, n) ∧
        ∀ u' n' t', n' < 2 ^ 56 → compare (make u n t) (make u' n' t') =
          internalKeyCompare (createInternalKey u n t) (createInternalKey u' n' t') := by
  refine ⟨by decide, by decide, by decide, ?_⟩
  intro h
  exact absurd (h [97] 1 .kTypeValue (by decide)).1 (by decide)

end InternalKey

end KoishiDB
