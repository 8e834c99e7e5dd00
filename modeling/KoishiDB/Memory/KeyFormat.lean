import KoishiDB.Memory.Memtable

/-!
# The format and the order of keys

`CreateMemtableKey` writes an entry in one format, and `LookupKey`, `ExtractInternalKey`,
`ExtractUserKey` and `ExtractValueFromMemtable` read parts of it, each with its own arithmetic.  The
comparator of the memtable reads entries in this format, the comparator of the tables reads internal
keys.

* `Entry.reads_back` : every reader finds what was written.
* `comparators_agree` : the two comparators compare entries in the same way, and their order is
  total.
-/

namespace KoishiDB

/-- The memtable key of the entry fits the 32-bit offsets of its readers, whatever the lengths of
its length fields, and the sequence number fits its 56 bits. -/
structure Entry.Encodable (e : Entry) : Prop where
  length_lt : e.userKey.length + e.value.length + 18 < 2 ^ 32
  seq_lt : e.seq < 2 ^ 56

theorem Entry.Encodable.fits {e : Entry} (h : e.Encodable) : e.Fits :=
  ⟨keyFits_of_length h.length_lt, h.seq_lt⟩

/-! ### Reading an entry back -/

/-- All readers find the parts of the entry in its memtable key, none of them faults, and the key
fits the memory allocated for it. -/
structure Entry.ReadsBack (e : Entry) : Prop where
  lookup : ∃ k, LookupKey.make e.memtableKey = .ok k ∧ k.userKey = .ok e.userKey ∧
    k.value = .ok e.value ∧ k.getSequence = .ok e.seq ∧ k.getKeyType = .ok e.type
  internalKey : extractInternalKey e.memtableKey = .ok e.internalKey
  userKey : extractUserKey e.internalKey = .ok (e.userKey, e.seq)
  value : extractValueFromMemtable e.memtableKey = .ok e.value
  allocated : e.memtableKey.length ≤ e.userKey.length + 8 + e.value.length + 10

/-- **The memtable key format.**  For every user key, sequence number, value and key type within the
range of the offsets, every reader gives back what `CreateMemtableKey` was given. -/
theorem Entry.reads_back (e : Entry) (h : e.Encodable) : e.ReadsBack where
  lookup := by
    have hkey : KeyFits e.userKey e.value := h.fits.1
    refine ⟨_, lookupKey_make_create e.seq e.type hkey, lookupOf_userKey e.seq e.type hkey,
      lookupOf_value e.seq e.type, ?_, lookupOf_getKeyType e.seq e.type⟩
    rw [lookupOf_getSequence, storedSeq_of_lt h.seq_lt]
  internalKey := extractInternalKey_create e.seq e.value e.type h.fits.1.key_lt
  userKey := by
    rw [Entry.internalKey, extractUserKey_create, storedSeq_of_lt h.seq_lt]
  value := extractValueFromMemtable_create e.seq e.type h.fits.1
  allocated := e.length_memtableKey_le

/-- A deletion with an empty key and a zero byte in its value. -/
theorem Entry.reads_back_deletion : Entry.ReadsBack ⟨[], 2 ^ 56 - 1, [0, 7], .kTypeDeletion⟩ :=
  Entry.reads_back _ ⟨by decide, by decide⟩

/-! ### The order of entries -/

/-- `u` comes before `u'` as a string of unsigned bytes: it is a proper prefix, or has the smaller
byte at the first place where they differ. -/
def LexBefore (u u' : Bytes) : Prop :=
  u <+: u' ∧ u ≠ u' ∨
    ∃ p x y s s', u = p ++ x :: s ∧ u' = p ++ y :: s' ∧ x.toNat < y.toNat

theorem lexBefore_cons (x : UInt8) (u u' : Bytes) :
    LexBefore (x :: u) (x :: u') ↔ LexBefore u u' := by
  constructor
  · rintro (⟨hpre, hne⟩ | ⟨p, a, b, s, s', hu, hu', hlt⟩)
    · exact .inl ⟨(List.cons_prefix_cons.1 hpre).2, fun h => hne (h ▸ rfl)⟩
    · -- the first place cannot be the one where they differ
      cases p with
      | nil =>
        obtain ⟨rfl, -⟩ := List.cons.inj hu
        obtain ⟨rfl, -⟩ := List.cons.inj hu'
        exact absurd hlt (Nat.lt_irrefl _)
      | cons z p =>
        exact .inr ⟨p, a, b, s, s', (List.cons.inj hu).2, (List.cons.inj hu').2, hlt⟩
  · rintro (⟨hpre, hne⟩ | ⟨p, a, b, s, s', hu, hu', hlt⟩)
    · exact .inl ⟨List.cons_prefix_cons.2 ⟨rfl, hpre⟩, fun h => hne (List.cons.inj h).2⟩
    · exact .inr ⟨x :: p, a, b, s, s', congrArg (x :: ·) hu, congrArg (x :: ·) hu', hlt⟩

/-- The order of byte strings is this one. -/
theorem lt_iff_lexBefore (u u' : Bytes) : u < u' ↔ LexBefore u u' := by
  induction u generalizing u' with
  | nil =>
    cases u' with
    | nil => simp [LexBefore]
    | cons y u' => simp [LexBefore]
  | cons x u ih =>
    cases u' with
    | nil => simp [LexBefore]
    | cons y u' =>
      rw [List.cons_lt_cons_iff]
      by_cases hxy : x = y
      · subst hxy
        rw [lexBefore_cons, ← ih]
        simp
      · simp only [hxy, false_and, or_false]
        constructor
        · intro hlt
          exact .inr ⟨[], x, y, u, u', rfl, rfl, UInt8.lt_iff_toNat_lt.1 hlt⟩
        · rintro (⟨hpre, -⟩ | ⟨p, a, b, s, s', hu, hu', hlt⟩)
          · exact absurd (List.cons_prefix_cons.1 hpre).1 hxy
          · cases p with
            | nil =>
              obtain ⟨rfl, -⟩ := List.cons.inj hu
              obtain ⟨rfl, -⟩ := List.cons.inj hu'
              exact UInt8.lt_iff_toNat_lt.2 hlt
            | cons z p => exact absurd ((List.cons.inj hu).1.trans (List.cons.inj hu').1.symm) hxy

/-- The memtable keys of encodable entries. -/
def Entry.IsMemtableKey (memtableKey : Bytes) : Prop :=
  ∃ e : Entry, e.Encodable ∧ memtableKey = e.memtableKey

/-- **The two comparators define the same total order.**  On encodable entries they agree and return
`-1`, `0` or `1`; the result is `0` exactly for equal user keys and sequence numbers, and `-1`
exactly for a user key that comes before the other as a string of unsigned bytes, or for the larger
of two sequence numbers of the same user key. -/
theorem comparators_agree :
    (∀ e e' : Entry, e.Encodable → e'.Encodable →
      memtableKeyCompare e.memtableKey e'.memtableKey =
          internalKeyCompare e.internalKey e'.internalKey ∧
        (memtableKeyCompare e.memtableKey e'.memtableKey = .ok 0 ↔
          e.userKey = e'.userKey ∧ e.seq = e'.seq) ∧
        (memtableKeyCompare e.memtableKey e'.memtableKey = .ok (-1) ↔
          LexBefore e.userKey e'.userKey ∨ e.userKey = e'.userKey ∧ e'.seq < e.seq)) ∧
      TotalOrder memtableKeyCompare Entry.IsMemtableKey := by
  refine ⟨?_, ?_⟩
  · intro e e' h h'
    have hmem := Entry.compare_memtableKey h.fits h'.fits
    refine ⟨hmem.trans (Entry.compare_internalKey h.fits h'.fits).symm, ?_, ?_⟩
    · rw [hmem, Except.ok.injEq, threeWay_eq_zero]
      exact keyRank_inj
    · rw [hmem, Except.ok.injEq, threeWay_eq_neg_one, ← lt_iff_lexBefore]
      exact keyRank_lt
  · apply TotalOrder.of_threeWay memtableKeyRank
    rintro a b ⟨e, h, rfl⟩ ⟨e', h', rfl⟩
    rw [Entry.compare_memtableKey h.fits h'.fits, h.fits.memtableKeyRank, h'.fits.memtableKeyRank]

/-- Two versions of a key: the newer one comes first, for both comparators. -/
theorem comparators_agree_two_versions :
    memtableKeyCompare (Entry.memtableKey ⟨[97], 2, [], .kTypeValue⟩)
        (Entry.memtableKey ⟨[97], 1, [98], .kTypeValue⟩) = .ok (-1) ∧
      internalKeyCompare (Entry.internalKey ⟨[97], 2, [], .kTypeValue⟩)
        (Entry.internalKey ⟨[97], 1, [98], .kTypeValue⟩) = .ok (-1) := by
  obtain ⟨hagree, -, hlt⟩ := comparators_agree.1 ⟨[97], 2, [], .kTypeValue⟩
    ⟨[97], 1, [98], .kTypeValue⟩ ⟨by decide, by decide⟩ ⟨by decide, by decide⟩
  have hneg := hlt.2 (.inr ⟨rfl, by decide⟩)
  exact ⟨hneg, hagree ▸ hneg⟩

end KoishiDB
