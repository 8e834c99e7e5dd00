import KoishiDB.Memory.SkipListShape
import KoishiDB.Memory.WriteBatch

/-!
# Memtables and batches of any bytes

`Holds` describes memtables whose entries have different places in the order.  Sequence numbers
that wrap around, or batches that were not built by `Put` and `Delete`, need not lead to such a
memtable.  `Sound m` is what is left: the skip list has its shape, and its keys were made by
`CreateMemtableKey`.  It is enough for every operation on a memtable to return.

* `insertLoop_sound` : inserting a batch of any bytes keeps it, unless the reading of the batch
  itself runs over its end.
* `Sound.get`, `Sound.destroy` : a search returns, and the destructor deletes each node once.
-/

namespace KoishiDB

/-- `Memtable::~Memtable`: the nodes that have been deleted. -/
def Memtable.destroy (m : Memtable) : Exec (List ℕ) := m.table.destroy

/-- The skip list has its shape, and its keys are those of entries. -/
structure Sound (m : Memtable) : Prop where
  woven : ∃ order, SkipList.Woven m.table order
  wellFormed : ∀ n ∈ m.table.nodes, WellFormedKey n.key

theorem sound_make (size₀ : ℕ) : Sound (.make size₀) where
  woven := ⟨[], SkipList.woven_empty⟩
  wellFormed n hn := by cases hn

/-- A memtable that holds entries is sound. -/
theorem Holds.sound {m : Memtable} {es : List Entry} (h : Holds m es) : Sound m :=
  ⟨h.rep.imp fun _ hr => hr.woven, h.wellFormed⟩

/-- The comparator of the memtable returns for keys of entries. -/
theorem exists_compare_of_wellFormed {a b : Bytes} (ha : WellFormedKey a) (hb : WellFormedKey b) :
    ∃ c, memtableKeyCompare a b = .ok c := by
  obtain ⟨u, n, v, t, h, rfl⟩ := ha
  obtain ⟨u', n', v', t', h', rfl⟩ := hb
  exact ⟨_, memtableKeyCompare_create n n' t t' h h'⟩

namespace Sound

variable {m : Memtable} (hm : Sound m)
include hm

/-- **`Memtable::Insert`** returns for the key of any entry, whether or not it is there already. -/
theorem insert {e : Entry} (hfits : KeyFits e.userKey e.value) {height : ℕ} (h1 : 1 ≤ height)
    (h2 : height ≤ kSkipListNodeMaxLevel) :
    ∃ m', m.insert e.memtableKey height = .ok m' ∧ Sound m' := by
  obtain ⟨order, hw⟩ := hm.woven
  have hkey : WellFormedKey e.memtableKey := ⟨_, _, _, _, hfits, rfl⟩
  have hcmp : ∀ n ∈ m.table.nodes, ∃ c, memtableKeyCompare n.key e.memtableKey = .ok c :=
    fun n hn => exists_compare_of_wellFormed (hm.wellFormed n hn) hkey
  obtain ⟨table, order', hins, hsh, hw'⟩ := hw.insert hcmp h1 h2
  refine ⟨⟨table, u64 (m.size + e.memtableKey.length)⟩, ?_, ⟨order', hw'⟩, ?_⟩
  · rw [Memtable.insert, hins]
    rfl
  · intro n hn
    have hmem : n.key ∈ (m.table.alloc e.memtableKey height).nodes.map Node.key := by
      rw [← hsh.key]
      exact List.mem_map_of_mem hn
    rw [SkipList.alloc, List.map_append, List.mem_append] at hmem
    rcases hmem with hmem | hmem
    · obtain ⟨n', hn', he⟩ := List.mem_map.1 hmem
      exact he ▸ hm.wellFormed n' hn'
    · rw [List.mem_singleton.1 hmem]
      exact hkey

/-- **`Memtable::Get`** returns for every key. -/
theorem get {u : Bytes} (n : ℕ) (t : KeyType) (hu : KeyFits u []) :
    ∃ r, m.get (createMemtableKey u n [] t) = .ok r := by
  obtain ⟨order, hw⟩ := hm.woven
  have hkey : WellFormedKey (createMemtableKey u n [] t) := ⟨u, n, [], t, hu, rfl⟩
  have hcmp : ∀ nd ∈ m.table.nodes,
      ∃ c, memtableKeyCompare nd.key (createMemtableKey u n [] t) = .ok c :=
    fun nd hnd => exists_compare_of_wellFormed (hm.wellFormed nd hnd) hkey
  obtain ⟨r, hr, hmem⟩ := hw.find hcmp
  cases r with
  | none => exact ⟨none, by rw [Memtable.get, hr]; rfl⟩
  | some key =>
    obtain ⟨nd, hnd, rfl⟩ := hmem key rfl
    obtain ⟨u', n', v', t', hfits, hkey'⟩ := hm.wellFormed nd hnd
    rw [Memtable.get, hr, Exec.ok_bind, hkey']
    simp only [extractInternalKey_create _ _ _ hfits.key_lt, extractUserKey_create,
      extractInternalKey_create _ _ _ hu.key_lt, Exec.ok_bind, Slice.compare_ofBytes,
      extractValueFromMemtable_create _ _ hfits, Exec.pure_eq]
    split
    · exact ⟨none, rfl⟩
    · exact ⟨some v', rfl⟩

/-- **`~Memtable`** deletes each node once. -/
theorem destroy : ∃ deleted, m.destroy = .ok deleted ∧ deleted.Nodup ∧
    ∀ i, i ∈ deleted ↔ i < m.table.nodes.length := by
  obtain ⟨order, hw⟩ := hm.woven
  exact ⟨order, hw.destroy, hw.nodup, fun i => hw.mem_iff⟩

end Sound

/-! ### Batches -/

namespace WriteBatch

/-- All that can go wrong in `GetLengthPrefixedSlice` is a read behind the end. -/
theorem getLengthPrefixedSlice_error {src : Bytes} {f : Fault}
    (h : getLengthPrefixedSlice src = .error f) : f = .outOfBounds := by
  rcases Exec.bind_eq_error.1 h with h | ⟨⟨len, rest⟩, -, h⟩
  · exact getVarint32_error h
  · dsimp only at h
    split at h
    · cases h
      rfl
    · rename_i hlen
      rw [advance, Exec.require_of (Nat.not_lt.1 hlen)] at h
      cases h

/-- An operation of a batch is read, or the reading runs over the end. -/
theorem processMemtableKey_cases (keyType : UInt8) (number : ℕ) (entries : Bytes) :
    processMemtableKey keyType number entries = .error .outOfBounds ∨
      ∃ entry rest, processMemtableKey keyType number entries = .ok (entry, rest) ∧
        rest.length ≤ entries.length ∧
        ∀ e, entry = some e → e.userKey.length + e.value.length ≤ entries.length := by
  unfold processMemtableKey
  split
  · -- a value: a key and a value are read
    cases hkey : getLengthPrefixedSlice entries with
    | error f => exact .inl (by rw [getLengthPrefixedSlice_error hkey]; rfl)
    | ok p =>
      obtain ⟨userKey, rest⟩ := p
      have hlen := getLengthPrefixedSlice_length hkey
      rw [Exec.ok_bind]
      cases hval : getLengthPrefixedSlice rest with
      | error f => exact .inl (by simp only [hval, getLengthPrefixedSlice_error hval]; rfl)
      | ok q =>
        obtain ⟨value, rest'⟩ := q
        have hlen' := getLengthPrefixedSlice_length hval
        refine .inr ⟨_, rest', by simp only [hval]; rfl, by omega, ?_⟩
        rintro e he
        cases he
        have h1 := length_cString_le userKey
        have h2 := length_cString_le value
        dsimp only
        omega
  · -- a deletion: a key is read, and the value is a blank
    cases hkey : getLengthPrefixedSlice entries with
    | error f => exact .inl (by rw [getLengthPrefixedSlice_error hkey]; rfl)
    | ok p =>
      obtain ⟨userKey, rest⟩ := p
      have hlen := getLengthPrefixedSlice_length hkey
      refine .inr ⟨_, rest, rfl, by omega, ?_⟩
      rintro e he
      cases he
      have h1 := length_cString_le userKey
      simp only [List.length_singleton]
      omega
  · exact .inr ⟨none, entries, rfl, Nat.le_refl _, fun e he => by cases he⟩

/-- **The loop of `InsertAll`** keeps a memtable sound, or reads over the end of the batch. -/
theorem insertLoop_sound (heights : Heights) {n i number : ℕ} {entries : Bytes} {m : Memtable}
    (hm : Sound m) (hlen : entries.length + 18 < 2 ^ 32) :
    insertLoop heights n i number entries m = .error .outOfBounds ∨
      ∃ m' es, insertLoop heights n i number entries m = .ok (m', es) ∧ Sound m' := by
  induction n generalizing i number entries m with
  | zero => exact .inr ⟨m, [], rfl, hm⟩
  | succ n ih =>
    cases entries with
    | nil => exact .inl rfl
    | cons keyType entries =>
      rw [List.length_cons] at hlen
      rw [insertLoop]
      rcases processMemtableKey_cases keyType (u64 (number + 1)) entries with
        hp | ⟨entry, rest, hp, hrest, hentry⟩
      · exact .inl (by rw [hp]; rfl)
      · rw [hp, Exec.ok_bind]
        cases entry with
        | none => exact ih hm (by omega)
        | some e =>
          have hfits : KeyFits e.userKey e.value :=
            keyFits_of_length (by have := hentry e rfl; omega)
          obtain ⟨m', hins, hm'⟩ := hm.insert hfits (heights.2 i).1 (heights.2 i).2
          simp only [hins, Exec.ok_bind]
          have hrec : insertLoop heights n (i + 1) (u64 (number + 1)) rest m' =
              .error .outOfBounds ∨ ∃ m'' es, insertLoop heights n (i + 1) (u64 (number + 1)) rest
                m' = .ok (m'', es) ∧ Sound m'' := ih hm' (by omega)
          rcases hrec with h | ⟨m'', es, h, hm''⟩
          · exact .inl (by rw [h]; rfl)
          · exact .inr ⟨m'', e :: es, by rw [h]; rfl, hm''⟩

end WriteBatch

/-- `InsertAll` of one batch after the other. -/
def Memtable.insertBatches (m : Memtable) (batches : List (WriteBatch × Heights)) : Exec Memtable :=
  batches.foldlM (fun m b => return (← b.1.insertAll m b.2).1) m

theorem insertBatches_sound {m : Memtable} (hm : Sound m) {batches : List (WriteBatch × Heights)}
    (hfit : ∀ b ∈ batches, b.1.rep.length + 18 < 2 ^ 32) :
    m.insertBatches batches = .error .outOfBounds ∨
      ∃ m', m.insertBatches batches = .ok m' ∧ Sound m' := by
  induction batches generalizing m with
  | nil => exact .inr ⟨m, rfl, hm⟩
  | cons b batches ih =>
    have hlen := hfit b List.mem_cons_self
    have hrest := fun b' hb' => hfit b' (List.mem_cons_of_mem _ hb')
    rw [Memtable.insertBatches, List.foldlM_cons]
    rcases WriteBatch.insertLoop_sound b.2 (n := b.1.count.toNat) (i := 0) hm
      (show (b.1.rep.drop kWriteBatchHeader).length + 18 < 2 ^ 32 by
        rw [List.length_drop]; omega) with h | ⟨m', es, h, hm'⟩
    · exact .inl (by rw [WriteBatch.insertAll, h]; rfl)
    · rw [WriteBatch.insertAll, h]
      exact ih hm' hrest

/-- **No batch breaks a memtable.**  Batches of any bytes, of less than 4 GiB, are inserted one
after the other into a new memtable.  Either reading a batch over its end fails, or all are
inserted, and then every search in the memtable returns and its destructor deletes each node once:
no null or deleted node is followed, no other assertion fails and no loop runs on, whatever the keys
and sequence numbers are.  (Where nothing is left of a batch, the assertion of `Advance(1)` stops the
source; it is not told apart from a read behind the end.) -/
theorem memtable_survives_any_batches (size₀ : ℕ) (batches : List (WriteBatch × Heights))
    (hfit : ∀ b ∈ batches, b.1.rep.length + 18 < 2 ^ 32) :
    (Memtable.make size₀).insertBatches batches = .error .outOfBounds ∨
      ∃ m, (Memtable.make size₀).insertBatches batches = .ok m ∧
        (∀ u n t, KeyFits u [] → ∃ r, m.get (createMemtableKey u n [] t) = .ok r) ∧
        ∃ deleted, m.destroy = .ok deleted ∧ deleted.Nodup ∧
          ∀ i, i ∈ deleted ↔ i < m.table.nodes.length := by
  refine (insertBatches_sound (sound_make size₀) hfit).imp_right ?_
  rintro ⟨m, hins, hm⟩
  exact ⟨m, hins, fun u n t hu => hm.get n t hu, hm.destroy⟩

/-- A batch with one `Put` and the sequence number 0. -/
def onePut : WriteBatch :=
  ⟨[0, 0, 0, 0, 0, 0, 0, 0, 1, 0, 0, 0, 1, 1, 97, 1, 98], by decide⟩

/-- The same key with the same sequence number, twice. -/
theorem memtable_survives_any_batches_twice :
    ∃ m, (Memtable.make 0).insertBatches [(onePut, flatHeights), (onePut, flatHeights)] = .ok m ∧
      ∃ deleted, m.destroy = .ok deleted ∧ deleted.Nodup ∧
        ∀ i, i ∈ deleted ↔ i < m.table.nodes.length := by
  have hreturns : ((Memtable.make 0).insertBatches
      [(onePut, flatHeights), (onePut, flatHeights)]).isOk = true := by decide
  rcases memtable_survives_any_batches 0 [(onePut, flatHeights), (onePut, flatHeights)] (by decide)
    with h | ⟨m, hins, -, hdel⟩
  · rw [h] at hreturns
    cases hreturns
  · exact ⟨m, hins, hdel⟩

end KoishiDB
