import KoishiDB.Base.Machine
import KoishiDB.Type.Key
import KoishiDB.Memory.SkipListInv
import Mathlib.Data.List.Nodup

/-!
# The memtable

`memory/memtable.h` and `memory/memtable.cc`: a skip list of memtable keys and the number of bytes
inserted.  The constructor does not initialise `size_`, so its first value is an argument of
`Memtable.make`.

`Holds m es` connects the memtable with the list `es` of the entries inserted into it.  The
memtable answers a search for a user key and a snapshot with the newest entry of the key that the
snapshot sees (`get_seek_some`, `get_seek_none`); the type of the entry is not looked at, so a
deletion is answered like a value.  `memtable_snapshot_reads` says it of every history of
insertions.
-/

namespace KoishiDB

/-- A memtable. -/
structure Memtable where
  /-- The skip list `table_`. -/
  table : SkipList Bytes
  /-- The field `size_`. -/
  size : ℕ
deriving Repr, DecidableEq

namespace Memtable

/-- The constructor; `size₀` is what the uninitialised field `size_` happens to hold. -/
def make (size₀ : ℕ) : Memtable := ⟨SkipList.empty, u64 size₀⟩

/-- `Memtable::EstimatedSize`. -/
def estimatedSize (m : Memtable) : ℕ := m.size

/-- The sum of the sizes of the memtable keys in the memtable. -/
def keyBytes (m : Memtable) : ℕ := (m.table.nodes.map fun n => n.key.length).sum

/-- `Memtable::Insert`, with the height of the new node. -/
def insert (m : Memtable) (memtableKey : Bytes) (height : ℕ) : Exec Memtable := do
  let table ← m.table.insert memtableKeyCompare memtableKey height
  return ⟨table, u64 (m.size + memtableKey.length)⟩

/-- `Memtable::Get`; `none` is the result `false`. -/
def get (m : Memtable) (memtableKey : Bytes) : Exec (Option Bytes) := do
  let ret ← m.table.findFirstGreaterOrEqual memtableKeyCompare memtableKey
  match ret with
  | none => return none
  | some ret =>
    let internalKey1 ← extractInternalKey ret
    let internalKey2 ← extractInternalKey memtableKey
    let (userKey1, _) ← extractUserKey internalKey1
    let (userKey2, _) ← extractUserKey internalKey2
    let r ← userKey1.compare userKey2
    if r ≠ 0 then return none
    let value ← extractValueFromMemtable ret
    return some value

end Memtable

/-- `MemtableIterator`. -/
structure MemtableIterator where
  /-- The memtable's skip list. -/
  table : SkipList Bytes
  /-- The position in it. -/
  iter : SkipList.Iterator

namespace MemtableIterator

/-- `Memtable::NewIterator`. -/
def make (m : Memtable) : Exec MemtableIterator := do
  let iter ← SkipList.Iterator.make m.table
  return ⟨m.table, iter⟩

/-- `MemtableIterator::Valid`. -/
def valid (it : MemtableIterator) : Bool := it.iter.valid

/-- `MemtableIterator::Next`. -/
def next (it : MemtableIterator) : Exec MemtableIterator := do
  let iter ← it.iter.next it.table
  return { it with iter := iter }

/-- `MemtableIterator::Key`. -/
def key (it : MemtableIterator) : Exec Bytes := do
  let memtableKey ← it.iter.key it.table
  extractInternalKey memtableKey

/-- `MemtableIterator::Value`. -/
def value (it : MemtableIterator) : Exec Bytes := do
  let memtableKey ← it.iter.key it.table
  extractValueFromMemtable memtableKey

/-- `MemtableIterator::SeekToFirst`: an assertion only. -/
def seekToFirst (it : MemtableIterator) : Exec Unit :=
  Exec.require (it.iter.valid = true) "iter_.Valid()"

end MemtableIterator

/-! ### Entries -/

/-- An entry: what a memtable key or an internal key with its value stands for. -/
structure Entry where
  /-- The user key. -/
  userKey : Bytes
  /-- The sequence number. -/
  seq : ℕ
  /-- The value. -/
  value : Bytes
  /-- Value or deletion. -/
  type : KeyType
deriving Repr, DecidableEq

namespace Entry

/-- The memtable key of an entry. -/
def memtableKey (e : Entry) : Bytes := createMemtableKey e.userKey e.seq e.value e.type

/-- The internal key of an entry. -/
def internalKey (e : Entry) : Bytes := createInternalKey e.userKey e.seq e.type

/-- The entry can be stored without loss: 32-bit offsets and a 56-bit sequence number. -/
def Fits (e : Entry) : Prop := KeyFits e.userKey e.value ∧ e.seq < 2 ^ 56

/-- The place of an entry in the order of keys. -/
def rank (e : Entry) : KeyOrder := keyRank e.userKey e.seq

instance (e : Entry) : Decidable e.Fits :=
  inferInstanceAs (Decidable (KeyFits _ _ ∧ _ < _))

end Entry

/-- The place of a memtable key in the order of keys. -/
def memtableKeyRank (memtableKey : Bytes) : KeyOrder :=
  match extractInternalKey memtableKey with
  | .ok internalKey => internalKeyRank internalKey
  | .error _ => keyRank [] 0

/-- The memtable keys that `CreateMemtableKey` makes of keys and values that fit. -/
def WellFormedKey (memtableKey : Bytes) : Prop :=
  ∃ u n v t, KeyFits u v ∧ memtableKey = createMemtableKey u n v t

theorem memtableKeyRank_create {u v : Bytes} (n : ℕ) (t : KeyType) (h : KeyFits u v) :
    memtableKeyRank (createMemtableKey u n v t) = keyRank u (storedSeq n) := by
  rw [memtableKeyRank, extractInternalKey_create n v t h.key_lt]
  exact internalKeyRank_create u n t

/-- The comparator of the memtable decides the order of keys on well-formed memtable keys. -/
theorem memtableKeyCompare_decides : Decides memtableKeyCompare WellFormedKey memtableKeyRank := by
  apply Decides.of_threeWay
  intro a b ha hb
  obtain ⟨u, n, v, t, h, rfl⟩ := ha
  obtain ⟨u', n', v', t', h', rfl⟩ := hb
  rw [memtableKeyCompare_create n n' t t' h h', memtableKeyRank_create n t h,
    memtableKeyRank_create n' t' h']

namespace Entry

variable {e e' : Entry}

theorem length_memtableKey_le (e : Entry) :
    e.memtableKey.length ≤ e.userKey.length + 8 + e.value.length + 10 := by
  have hk := length_encodeVarint32_le (e.userKey.length + 8)
  have hv := length_encodeVarint32_le e.value.length
  simp only [memtableKey, createMemtableKey, List.length_append, length_createInternalKey]
  omega

theorem le_length_internalKey (e : Entry) : 8 ≤ e.internalKey.length := by
  rw [internalKey, length_createInternalKey]
  omega

theorem Fits.wellFormed (h : e.Fits) : WellFormedKey e.memtableKey :=
  ⟨_, _, _, _, h.1, rfl⟩

theorem Fits.memtableKeyRank (h : e.Fits) : memtableKeyRank e.memtableKey = e.rank := by
  rw [memtableKey, memtableKeyRank_create _ _ h.1, storedSeq_of_lt h.2, rank]

/-- The comparator of the memtable orders entries by their ranks. -/
theorem compare_memtableKey (h : e.Fits) (h' : e'.Fits) :
    memtableKeyCompare e.memtableKey e'.memtableKey = .ok (threeWay e.rank e'.rank) := by
  rw [memtableKey, memtableKey, memtableKeyCompare_create _ _ _ _ h.1 h'.1, storedSeq_of_lt h.2,
    storedSeq_of_lt h'.2]
  rfl

/-- The comparator of the tables orders the internal keys of entries in the same way. -/
theorem compare_internalKey (h : e.Fits) (h' : e'.Fits) :
    internalKeyCompare e.internalKey e'.internalKey = .ok (threeWay e.rank e'.rank) := by
  rw [internalKey, internalKey, internalKeyCompare_create, storedSeq_of_lt h.2,
    storedSeq_of_lt h'.2]
  rfl

end Entry

/-! ### What a memtable holds -/

/-- The memtable `m` holds exactly the entries `es`, in the order of their insertion. -/
structure Holds (m : Memtable) (es : List Entry) : Prop where
  rep : ∃ order, SkipList.Rep memtableKeyRank m.table order
  nodes : m.table.nodes.map Node.key = es.map Entry.memtableKey
  fits : ∀ e ∈ es, e.Fits
  distinct : (es.map Entry.rank).Nodup

namespace Holds

variable {m : Memtable} {es : List Entry}

theorem make (size₀ : ℕ) : Holds (Memtable.make size₀) [] :=
  ⟨⟨[], SkipList.rep_empty _⟩, rfl, by simp, by simp⟩

theorem node_mem (h : Holds m es) {n : Node Bytes} (hn : n ∈ m.table.nodes) :
    ∃ e ∈ es, n.key = e.memtableKey := by
  have : n.key ∈ es.map Entry.memtableKey := h.nodes ▸ List.mem_map_of_mem hn
  obtain ⟨e, he, hek⟩ := List.mem_map.1 this
  exact ⟨e, he, hek.symm⟩

theorem exists_node (h : Holds m es) {e : Entry} (he : e ∈ es) :
    ∃ n ∈ m.table.nodes, n.key = e.memtableKey := by
  have : e.memtableKey ∈ m.table.nodes.map Node.key := h.nodes ▸ List.mem_map_of_mem he
  exact List.mem_map.1 this

theorem wellFormed (h : Holds m es) : ∀ n ∈ m.table.nodes, WellFormedKey n.key := fun n hn => by
  obtain ⟨e, he, hek⟩ := h.node_mem hn
  exact hek ▸ (h.fits e he).wellFormed

/-- Inserting an entry with a new key and sequence number adds exactly that entry. -/
theorem insert (h : Holds m es) {e : Entry} (hfits : e.Fits) (hnew : e.rank ∉ es.map Entry.rank)
    {height : ℕ} (h1 : 1 ≤ height) (h2 : height ≤ kSkipListNodeMaxLevel) :
    ∃ m', m.insert e.memtableKey height = .ok m' ∧ Holds m' (es ++ [e]) ∧
      m'.size = u64 (m.size + e.memtableKey.length) := by
  obtain ⟨order, hrep⟩ := h.rep
  obtain ⟨t, ht, hsh, hrep'⟩ := SkipList.insert_spec hrep memtableKeyCompare_decides h.wellFormed
    hfits.wellFormed
    (fun n hn => by
      obtain ⟨e', he', hek⟩ := h.node_mem hn
      rw [hek, (h.fits e' he').memtableKeyRank, hfits.memtableKeyRank]
      exact fun heq => hnew (heq ▸ List.mem_map_of_mem he'))
    h1 h2
  -- The keys of the nodes are in the order of the insertions, so the new one is at the end.
  refine ⟨⟨t, u64 (m.size + e.memtableKey.length)⟩, ?_, ⟨⟨_, hrep'⟩, ?_, ?_, ?_⟩, rfl⟩
  · simp [Memtable.insert, ht]
  · change t.nodes.map Node.key = _
    rw [hsh.key, SkipList.alloc, List.map_append, List.map_append, h.nodes]
    rfl
  · intro e' he'
    rcases List.mem_append.1 he' with he' | he'
    · exact h.fits e' he'
    · rw [List.mem_singleton.1 he']; exact hfits
  · rw [List.map_append, List.nodup_append]
    refine ⟨h.distinct, by simp, ?_⟩
    intro a ha b hb
    simp only [List.map_cons, List.map_nil, List.mem_singleton] at hb
    rintro rfl
    exact hnew (hb ▸ ha)

end Holds

/-! ### Searching a memtable -/

/-- `e` is the newest entry of the user key `u` that a snapshot `n` sees. -/
abbrev Newest (es : List Entry) (u : Bytes) (n : ℕ) (e : Entry) : Prop :=
  Versioned.IsNewest Entry.userKey Entry.seq es u n e

theorem Holds.eq_of_rank_eq {m : Memtable} {es : List Entry} (h : Holds m es) {e e' : Entry}
    (he : e ∈ es) (he' : e' ∈ es) (hr : e.rank = e'.rank) : e = e' :=
  List.inj_on_of_nodup_map h.distinct he he' hr

section Get

variable {m : Memtable} {es : List Entry} {u : Bytes} {n : ℕ} {t : KeyType}

/-- The bytes of the answer, once the search has come to an entry. -/
theorem get_of_find {e : Entry} (hu : KeyFits u []) (he : e.Fits)
    (hf : m.table.findFirstGreaterOrEqual memtableKeyCompare (createMemtableKey u n [] t) =
      .ok (some e.memtableKey)) :
    m.get (createMemtableKey u n [] t) = .ok (if e.userKey = u then some e.value else none) := by
  have h1 : extractInternalKey e.memtableKey = .ok e.internalKey :=
    extractInternalKey_create _ _ _ he.1.key_lt
  have h2 : extractValueFromMemtable e.memtableKey = .ok e.value :=
    extractValueFromMemtable_create _ _ he.1
  have h3 : extractUserKey e.internalKey = .ok (e.userKey, storedSeq e.seq) :=
    extractUserKey_create _ _ _
  simp only [Memtable.get, hf, h1, h3, extractInternalKey_create n [] t hu.key_lt,
    extractUserKey_create, Exec.ok_bind, Slice.compare_ofBytes, sliceCompare_eq_threeWay,
    threeWay_eq_zero, ne_eq]
  by_cases hk : e.userKey = u
  · simp [hk, h2]
  · simp [hk]

/-- What a search comes to: nothing, when all entries are in front of the key searched for, or
the least entry that is not. -/
theorem Holds.find_cases (h : Holds m es) (hu : KeyFits u []) :
    (m.table.findFirstGreaterOrEqual memtableKeyCompare (createMemtableKey u n [] t) = .ok none ∧
      ∀ e ∈ es, e.rank < keyRank u (storedSeq n)) ∨
    ∃ e ∈ es, m.table.findFirstGreaterOrEqual memtableKeyCompare (createMemtableKey u n [] t) =
        .ok (some e.memtableKey) ∧ keyRank u (storedSeq n) ≤ e.rank ∧
      ∀ e' ∈ es, keyRank u (storedSeq n) ≤ e'.rank → e.rank ≤ e'.rank := by
  obtain ⟨order, hrep⟩ := h.rep
  have hkey : WellFormedKey (createMemtableKey u n [] t) := ⟨u, n, [], t, hu, rfl⟩
  have hfind := SkipList.find_spec hrep memtableKeyCompare_decides h.wellFormed hkey
  rw [memtableKeyRank_create n t hu] at hfind
  rw [hfind]
  cases hlb : SkipList.lowerBound memtableKeyRank m.table order (keyRank u (storedSeq n)) with
  | none =>
    refine .inl ⟨rfl, ?_⟩
    intro e he
    obtain ⟨nd, hnd, hk⟩ := h.exists_node he
    have := (SkipList.lowerBound_eq_none hrep).1 hlb nd hnd
    rwa [hk, (h.fits e he).memtableKeyRank] at this
  | some key =>
    obtain ⟨⟨nd, hnd, hk⟩, hle, hleast⟩ := SkipList.lowerBound_eq_some hrep hlb
    obtain ⟨e, he, hek⟩ := h.node_mem hnd
    have hke : key = e.memtableKey := hk.symm.trans hek
    rw [hke, (h.fits e he).memtableKeyRank] at hle hleast
    refine .inr ⟨e, he, by rw [hke], hle, ?_⟩
    intro e' he' hle'
    obtain ⟨nd', hnd', hk'⟩ := h.exists_node he'
    have := hleast nd' hnd'
    rw [hk', (h.fits e' he').memtableKeyRank] at this
    exact this hle'

/-- What a search answers: the value of the newest entry of the user key that the snapshot sees,
or nothing when it sees none. -/
theorem Holds.get_cases (h : Holds m es) (hu : KeyFits u []) :
    (∃ e, Newest es u (storedSeq n) e ∧
      m.get (createMemtableKey u n [] t) = .ok (some e.value)) ∨
    ((∀ e ∈ es, e.userKey = u → storedSeq n < e.seq) ∧
      m.get (createMemtableKey u n [] t) = .ok none) := by
  rcases h.find_cases (n := n) (t := t) hu with ⟨hf, hall⟩ | ⟨e, he, hf, hle, hleast⟩
  · refine .inr ⟨?_, by simp [Memtable.get, hf]⟩
    intro e he hk
    by_contra hseq
    exact absurd (hall e he) (not_lt.2 (Versioned.place_le.2 (.inr ⟨hk.symm, not_lt.1 hseq⟩)))
  · rw [get_of_find hu (h.fits e he) hf]
    by_cases hk : e.userKey = u
    · exact .inl ⟨e, .of_least he hle hleast hk, by rw [if_pos hk]⟩
    · exact .inr ⟨Versioned.key_ne_of_least hle hleast hk, by rw [if_neg hk]⟩

/-- **A search finds the newest entry** of the user key that the snapshot sees. -/
theorem get_seek_some (h : Holds m es) (hu : KeyFits u []) {e : Entry}
    (hn : Newest es u (storedSeq n) e) :
    m.get (createMemtableKey u n [] t) = .ok (some e.value) := by
  rcases h.get_cases (n := n) (t := t) hu with ⟨e', hn', hget⟩ | ⟨hno, -⟩
  · have : e = e' := h.eq_of_rank_eq hn.mem hn'.mem
      (keyRank_inj.2 ⟨hn.key_eq.trans hn'.key_eq.symm, hn.ver_eq hn'⟩)
    rw [this, hget]
  · exact absurd hn.ver_le (not_le.2 (hno e hn.mem hn.key_eq))

/-- A search for a user key without an entry that the snapshot sees finds nothing. -/
theorem get_seek_none (h : Holds m es) (hu : KeyFits u [])
    (hno : ∀ e ∈ es, e.userKey = u → storedSeq n < e.seq) :
    m.get (createMemtableKey u n [] t) = .ok none := by
  rcases h.get_cases (n := n) (t := t) hu with ⟨e, hn, -⟩ | ⟨-, hget⟩
  · exact absurd hn.ver_le (not_le.2 (hno e hn.mem hn.key_eq))
  · exact hget

end Get

/-! ### Histories of insertions -/

namespace Memtable

/-- `Memtable::Insert` of entries, one after the other, each with the height of its node. -/
def insertEntries (m : Memtable) (inserts : List (Entry × ℕ)) : Exec Memtable :=
  Machine.run (fun m insert => m.insert insert.1.memtableKey insert.2) m inserts

/-- `Memtable::Get` with the string that `result` points to: what the call returns, and what the
string holds afterwards. -/
def getInto (m : Memtable) (memtableKey result : Bytes) : Exec (Bool × Bytes) := do
  match ← m.get memtableKey with
  | none => return (false, result)
  | some value => return (true, value)

end Memtable

/-- An insertion that the memtable can make: the entry fits and the height is one that
`RandomHeight` can return. -/
def Insertable (insert : Entry × ℕ) : Prop :=
  insert.1.Fits ∧ 1 ≤ insert.2 ∧ insert.2 ≤ kSkipListNodeMaxLevel

instance Insertable.decidable (insert : Entry × ℕ) : Decidable (Insertable insert) :=
  inferInstanceAs (Decidable (_ ∧ _ ≤ _ ∧ _ ≤ _))

/-- Insertions under new keys and sequence numbers all succeed, and afterwards the memtable holds
their entries as well. -/
theorem Holds.insertEntries {m : Memtable} {es : List Entry} (h : Holds m es)
    {inserts : List (Entry × ℕ)} (hins : ∀ i ∈ inserts, Insertable i)
    (hnew : ((es ++ inserts.map Prod.fst).map Entry.rank).Nodup) :
    ∃ m', m.insertEntries inserts = .ok m' ∧ Holds m' (es ++ inserts.map Prod.fst) := by
  induction inserts generalizing m es with
  | nil => exact ⟨m, rfl, by simpa using h⟩
  | cons i inserts ih =>
    obtain ⟨hfits, h1, h2⟩ := hins i List.mem_cons_self
    have hsplit : es ++ (i :: inserts).map Prod.fst = es ++ [i.1] ++ inserts.map Prod.fst := by
      simp
    rw [hsplit] at hnew ⊢
    have hrank : i.1.rank ∉ es.map Entry.rank := by
      rw [List.map_append, List.map_append, List.nodup_append, List.nodup_append] at hnew
      exact fun hmem => hnew.1.2.2 _ hmem _ (by simp) rfl
    obtain ⟨m₁, hm₁, hh₁, -⟩ := h.insert hfits hrank h1 h2
    obtain ⟨m', hm', hh'⟩ := ih hh₁ (fun j hj => hins j (List.mem_cons_of_mem _ hj)) hnew
    exact ⟨m', Machine.run_cons_ok.2 ⟨m₁, hm₁, hm'⟩, hh'⟩

theorem nodup_rank_of_seq {es : List Entry} (h : (es.map Entry.seq).Nodup) :
    (es.map Entry.rank).Nodup := by
  rw [List.nodup_map_iff_inj_on h.of_map]
  intro e he e' he' hr
  exact List.inj_on_of_nodup_map h he he' (keyRank_inj.1 hr).2

/-- **Snapshot reads.**  After any history of insertions under distinct sequence numbers, whatever
the heights of the nodes, a search for a user key and a snapshot answers with the newest entry of
the key that the snapshot sees; it fails, and leaves the result string alone, exactly when there
is none. -/
theorem memtable_snapshot_reads (size₀ : ℕ) (inserts : List (Entry × ℕ))
    (hins : ∀ i ∈ inserts, Insertable i ∧ i.1.type = .kTypeValue)
    (hseqs : (inserts.map fun i => i.1.seq).Nodup) :
    ∃ m, (Memtable.make size₀).insertEntries inserts = .ok m ∧
      ∀ (u result : Bytes) (s : ℕ), KeyFits u [] → s < 2 ^ 56 →
        ((∃ e ∈ inserts.map Prod.fst, e.userKey = u ∧ e.seq ≤ s) →
          ∃ e, Newest (inserts.map Prod.fst) u s e ∧
            m.getInto (createMemtableKey u s [] kTypeSeek) result = .ok (true, e.value)) ∧
        (m.getInto (createMemtableKey u s [] kTypeSeek) result = .ok (false, result) ↔
          ∀ e ∈ inserts.map Prod.fst, e.userKey = u → s < e.seq) := by
  have hdistinct : ((inserts.map Prod.fst).map Entry.rank).Nodup :=
    nodup_rank_of_seq (by rw [List.map_map]; exact hseqs)
  obtain ⟨m, hm, hh⟩ := (Holds.make size₀).insertEntries (fun i hi => (hins i hi).1) hdistinct
  refine ⟨m, hm, ?_⟩
  intro u result s hu hs
  rw [List.nil_append] at hh
  rcases hh.get_cases (n := s) (t := kTypeSeek) hu with ⟨e, hnew, hget⟩ | ⟨hno, hget⟩
  · rw [storedSeq_of_lt hs] at hnew
    refine ⟨fun _ => ⟨e, hnew, by simp [Memtable.getInto, hget]⟩, ?_⟩
    simp only [Memtable.getInto, hget, Exec.ok_bind, Exec.pure_eq]
    constructor
    · intro h
      simp at h
    · intro h
      exact absurd hnew.ver_le (not_le.2 (h e hnew.mem hnew.key_eq))
  · rw [storedSeq_of_lt hs] at hno
    refine ⟨?_, by simpa [Memtable.getInto, hget] using hno⟩
    rintro ⟨e, he, hk, hle⟩
    exact absurd hle (not_le.2 (hno e he hk))

/-- Two versions of the key `a` and a snapshot between them. -/
theorem memtable_snapshot_reads_two_versions :
    ∃ m, (Memtable.make 0).insertEntries [(⟨[97], 1, [5], .kTypeValue⟩, 1),
        (⟨[97], 3, [], .kTypeValue⟩, 2)] = .ok m ∧
      m.getInto (createMemtableKey [97] 2 [] kTypeSeek) [7] = .ok (true, [5]) ∧
      m.getInto (createMemtableKey [97] 0 [] kTypeSeek) [7] = .ok (false, [7]) := by
  obtain ⟨m, hm, hget⟩ := memtable_snapshot_reads 0 [(⟨[97], 1, [5], .kTypeValue⟩, 1),
    (⟨[97], 3, [], .kTypeValue⟩, 2)]
    (by decide) (by decide)
  have hfit : KeyFits [97] [] := keyFits_of_length (by decide)
  refine ⟨m, hm, ?_, (hget _ _ _ hfit (by decide)).2.2 (by decide)⟩
  obtain ⟨e, he, hval⟩ := (hget [97] [7] 2 hfit (by decide)).1 (by decide)
  have : e.value = [5] := by
    have h1 := he.mem
    have h2 := he.ver_le
    simp only [List.map_cons, List.map_nil, List.mem_cons, List.not_mem_nil, or_false] at h1
    rcases h1 with rfl | rfl
    · rfl
    · exact absurd h2 (by decide)
  rw [hval, this]

end KoishiDB
