import KoishiDB.Db.Flush

/-!
# The order of the file search

The loop of `Get` over the table files, with the lookup in one table as a parameter.  The loop goes
through `file_metas_` in the order in which compaction appends to it, oldest table first, and ends
at the first table that answers.  Its range test compares with a key that is smaller than every
entry of the user key searched for, so it also leaves out a table whose smallest user key is the
one searched for.

* `inRange_buildTable_iff` : when the range test passes the table that has the user key.
* `searchTables_eq` : the loop answers with the first table that has the user key behind a smaller
  one.
* `search_returns_newest_iff` : when that answer is the newest value.
-/

namespace KoishiDB

/-! ### Tables as the search sees them -/

/-- A table in the list: its file meta and its entries, in the order of their keys. -/
structure TableFile where
  fileMeta : FileMeta
  entries : List Entry
  nonempty : entries ≠ []
  sorted : entries.Pairwise fun e e' => e.rank < e'.rank
  /-- No sequence number reaches that of the key searched for. -/
  older : ∀ e ∈ entries, e.seq < storedSeq UINT64_MAX
  smallest : fileMeta.smallestKey = firstKeyOf (entries.map Entry.pair)
  largest : fileMeta.largestKey = lastKeyOf (entries.map Entry.pair)

namespace TableFile

variable {t : TableFile} {u : Bytes}

/-- The table has an entry of the user key. -/
def Has (t : TableFile) (u : Bytes) : Prop := ∃ e ∈ t.entries, e.userKey = u

/-- The table has an entry of a smaller user key. -/
def HasSmaller (t : TableFile) (u : Bytes) : Prop := ∃ e ∈ t.entries, e.userKey < u

instance : Decidable (t.Has u) := inferInstanceAs (Decidable (∃ e ∈ t.entries, e.userKey = u))

instance : Decidable (t.HasSmaller u) :=
  inferInstanceAs (Decidable (∃ e ∈ t.entries, e.userKey < u))

/-- The newest value of the user key in the table: its first entry has the largest sequence
number. -/
def newest (t : TableFile) (u : Bytes) : Option Bytes :=
  (t.entries.find? fun e => e.userKey = u).map Entry.value

theorem newest_eq_none : t.newest u = none ↔ ¬ t.Has u := by
  simp [newest, Has, List.find?_eq_none]

/-- The first entry of a user key is its newest one. -/
theorem newest_eq_some (h : t.Has u) :
    ∃ e, Newest t.entries u UINT64_MAX e ∧ t.newest u = some e.value := by
  obtain ⟨e₀, he₀, hu₀⟩ := h
  cases hf : t.entries.find? fun e => e.userKey = u with
  | none => exact absurd hu₀ (by simpa using List.find?_eq_none.1 hf e₀ he₀)
  | some e =>
    obtain ⟨hk, as, bs, hsplit, has⟩ := List.find?_eq_some_iff_append.1 hf
    have hk : e.userKey = u := by simpa using hk
    have hmem : e ∈ t.entries := by simp [hsplit]
    have hlt : ∀ e' ∈ t.entries, e'.seq ≤ UINT64_MAX := fun e' he' =>
      (t.older e' he').le.trans (Nat.mod_le _ _)
    refine ⟨e, ⟨hmem, hk, hlt e hmem, ?_⟩, by simp [newest, hf]⟩
    intro e' he' hk' _
    have hsorted := t.sorted
    rw [hsplit] at hsorted he'
    -- an entry of the key stands behind the first one, so its sequence number is not larger
    rcases List.mem_append.1 he' with he' | he'
    · exact absurd hk' (by simpa using has e' he')
    · rcases List.mem_cons.1 he' with rfl | he'
      · exact le_rfl
      · have := (List.pairwise_cons.1 (List.pairwise_append.1 hsorted).2.1).1 e' he'
        rcases keyRank_lt.1 this with h | h
        · exact absurd (hk.trans hk'.symm) h.ne
        · exact h.2.le

theorem compare_seek {e : Entry} (he : e ∈ t.entries) (u : Bytes) :
    internalKeyCompare e.pair.1 (seekInternalKey u) =
      .ok (if e.userKey < u then -1 else 1) := by
  have hold := t.older e he
  have hseq : storedSeq e.seq = e.seq := storedSeq_of_lt (hold.trans (storedSeq_lt _))
  have hcmp : internalKeyCompare e.pair.1 (seekInternalKey u) = _ := internalKeyCompare_create ..
  rw [hcmp, hseq, threeWay]
  congr 1
  by_cases hu : e.userKey < u
  · rw [if_pos (keyRank_lt.2 (.inl hu)), if_pos hu]
  · have hlt : ¬ keyRank e.userKey e.seq < keyRank u (storedSeq UINT64_MAX) := by
      intro h
      rcases keyRank_lt.1 h with h | h
      · exact hu h
      · exact hold.not_gt h.2
    have hne : keyRank e.userKey e.seq ≠ keyRank u (storedSeq UINT64_MAX) :=
      fun h => hold.ne (keyRank_inj.1 h).2
    rw [if_neg hlt, if_neg hne, if_neg hu]

theorem le_length_smallestKey (t : TableFile) : 8 ≤ t.fileMeta.smallestKey.length := by
  obtain ⟨e, es, hes⟩ := List.exists_cons_of_ne_nil t.nonempty
  rw [t.smallest, hes]
  exact e.le_length_internalKey

theorem le_length_largestKey (t : TableFile) : 8 ≤ t.fileMeta.largestKey.length := by
  obtain ⟨es, e, hes⟩ := List.eq_nil_or_concat t.entries |>.resolve_left t.nonempty
  rw [t.largest, hes, List.concat_eq_append, List.map_append, List.map_singleton, lastKeyOf_append]
  exact e.le_length_internalKey

/-- The first half of the range test: the table has a smaller user key. -/
theorem compare_smallest (t : TableFile) (u : Bytes) :
    internalKeyCompare t.fileMeta.smallestKey (seekInternalKey u) =
      .ok (if t.HasSmaller u then -1 else 1) := by
  obtain ⟨e, es, hes⟩ := List.exists_cons_of_ne_nil t.nonempty
  have hmem : e ∈ t.entries := by simp [hes]
  have hkey : t.fileMeta.smallestKey = e.pair.1 := by rw [t.smallest, hes]; rfl
  rw [hkey, compare_seek hmem]
  have : e.userKey < u ↔ t.HasSmaller u := by
    refine ⟨fun h => ⟨e, hmem, h⟩, ?_⟩
    rintro ⟨e', he', hlt⟩
    rw [hes] at he'
    rcases List.mem_cons.1 he' with rfl | he'
    · exact hlt
    · have hsorted := t.sorted
      rw [hes] at hsorted
      rcases keyRank_lt.1 ((List.pairwise_cons.1 hsorted).1 e' he') with h | h
      · exact h.trans hlt
      · exact h.1 ▸ hlt
  simp only [this]

/-- The second half: a table that has the user key passes it. -/
theorem compare_largest (t : TableFile) (u : Bytes) :
    ∃ c, internalKeyCompare t.fileMeta.largestKey (seekInternalKey u) = .ok c ∧
      (t.Has u → c = 1) := by
  obtain ⟨es, e, hes⟩ := List.eq_nil_or_concat t.entries |>.resolve_left t.nonempty
  rw [List.concat_eq_append] at hes
  have hmem : e ∈ t.entries := by simp [hes]
  have hkey : t.fileMeta.largestKey = e.pair.1 := by
    rw [t.largest, hes, List.map_append, List.map_singleton, lastKeyOf_append]
  refine ⟨_, by rw [hkey, compare_seek hmem], ?_⟩
  rintro ⟨e', he', rfl⟩
  rw [hes] at he'
  refine if_neg ?_
  rcases List.mem_append.1 he' with he' | he'
  · have hsorted := t.sorted
    rw [hes] at hsorted
    have := (List.pairwise_append.1 hsorted).2.2 e' he' e (by simp)
    rcases keyRank_lt.1 this with h | h
    · exact h.not_gt
    · rw [h.1]; exact lt_irrefl _
  · rw [List.mem_singleton.1 he']; exact lt_irrefl _

end TableFile

/-- The tables that `BuildTable` writes are such tables. -/
theorem Holds.exists_tableFile {m : Memtable} {es : List Entry} (hm : Holds m es)
    (hold : ∀ e ∈ es, e.seq < storedSeq UINT64_MAX) {it : MemtableIterator}
    (hit : MemtableIterator.make m = .ok it) {env : BuildEnv} (hopens : env.opens = true)
    {name : String} {fm : FileMeta} {r : BuildResult} (h : buildTable env name fm it = .ok r) :
    ∃ t : TableFile, t.fileMeta = r.fileMeta ∧ t.entries.Perm es := by
  obtain ⟨es', hperm, hsorted, hne, hadded, b, -, hcase⟩ := hm.buildTable_cases hit hopens h
  have hmeta : r.fileMeta.smallestKey = firstKeyOf r.added ∧
      r.fileMeta.largestKey = lastKeyOf r.added := by
    rcases hcase with ⟨-, hmeta, -⟩ | ⟨-, hmeta, -⟩ <;> rw [hmeta] <;> exact ⟨rfl, rfl⟩
  rw [hadded] at hmeta
  exact ⟨⟨r.fileMeta, es', hne, hsorted, fun e he => hold e (hperm.mem_iff.1 he), hmeta.1,
    hmeta.2⟩, rfl, hperm⟩

/-! ### The range test -/

theorem TableFile.exists_inRange (t : TableFile) (u : Bytes) :
    ∃ inRange, t.fileMeta.inRange (seekInternalKey u) = .ok inRange ∧
      (inRange = true → t.HasSmaller u) ∧ (t.Has u → t.HasSmaller u → inRange = true) := by
  obtain ⟨c, hc, hin⟩ := t.compare_largest u
  refine ⟨_, FileMeta.inRange_eq t.le_length_smallestKey t.le_length_largestKey
    (t.compare_smallest u) hc, ?_, ?_⟩
  · intro h
    by_contra hsmaller
    simp [hsmaller] at h
  · intro h hsmaller
    simp [hsmaller, hin h]

theorem TableFile.inRange_iff {t : TableFile} {u : Bytes} (h : t.Has u) :
    t.fileMeta.inRange (seekInternalKey u) = .ok true ↔ t.HasSmaller u := by
  obtain ⟨inRange, heq, hsmaller, hin⟩ := t.exists_inRange u
  rw [heq]
  constructor
  · intro htrue
    exact hsmaller (Except.ok.inj htrue)
  · intro hs
    rw [hin h hs]

/-- **When the range test finds the table of a key.**  For every user key of a memtable, the test
is true of the file meta that `BuildTable` fills from the memtable if and only if the memtable also
has a smaller user key. -/
theorem inRange_buildTable_iff {m : Memtable} {es : List Entry} (hm : Holds m es)
    (hold : ∀ e ∈ es, e.seq < 2 ^ 56 - 1) {it : MemtableIterator}
    (hit : MemtableIterator.make m = .ok it) {env : BuildEnv} (hopens : env.opens = true)
    {name : String} {fm : FileMeta} {r : BuildResult} (h : buildTable env name fm it = .ok r)
    {u : Bytes} (hu : ∃ e ∈ es, e.userKey = u) :
    r.fileMeta.inRange (createInternalKey u UINT64_MAX kTypeSeek) = .ok true ↔
      ∃ e ∈ es, e.userKey < u := by
  obtain ⟨t, hmeta, hperm⟩ := hm.exists_tableFile hold hit hopens h
  have hmem : ∀ e, e ∈ t.entries ↔ e ∈ es := fun e => hperm.mem_iff
  have hhas : t.Has u := by
    obtain ⟨e, he, hk⟩ := hu
    exact ⟨e, (hmem e).2 he, hk⟩
  rw [← hmeta]
  refine (TableFile.inRange_iff hhas).trans ?_
  simp only [TableFile.HasSmaller, hmem]

/-- The iterator of the memtable of some insertions, and the table written from it. -/
def writtenTable (inserts : List (Entry × ℕ)) : Exec (MemtableIterator × BuildResult) := do
  let m ← (Memtable.make 0).insertEntries inserts
  let it ← MemtableIterator.make m
  let r ← buildTable .accepting "sstable_1" .make it
  return (it, r)

theorem exists_writtenTable {inserts : List (Entry × ℕ)} (hins : ∀ i ∈ inserts, Insertable i)
    (hnew : ((inserts.map Prod.fst).map Entry.rank).Nodup)
    (hrun : (writtenTable inserts).isOk = true) :
    ∃ m it r, Holds m (inserts.map Prod.fst) ∧ MemtableIterator.make m = .ok it ∧
      buildTable .accepting "sstable_1" .make it = .ok r := by
  obtain ⟨m, hm, hholds⟩ := (Holds.make 0).insertEntries hins hnew
  cases hx : writtenTable inserts with
  | error e => simp [hx, Except.isOk, Except.toBool] at hrun
  | ok x =>
    simp only [writtenTable, hm, Exec.ok_bind] at hx
    obtain ⟨it, hit, hx⟩ := Exec.bind_eq_ok.1 hx
    obtain ⟨r, hr, -⟩ := Exec.bind_eq_ok.1 hx
    exact ⟨m, it, r, hholds, hit, hr⟩

/-- A memtable of two keys without zero bytes. -/
theorem inRange_buildTable_iff_two_keys :
    ∃ m it r, Holds m [⟨List.replicate 8 97, 1, [49], .kTypeValue⟩,
        ⟨List.replicate 8 98, 2, [50], .kTypeValue⟩] ∧ MemtableIterator.make m = .ok it ∧
      buildTable .accepting "sstable_1" .make it = .ok r ∧
      r.fileMeta.inRange (createInternalKey (List.replicate 8 98) UINT64_MAX kTypeSeek) =
        .ok true := by
  have hins : ∀ i ∈ [((⟨List.replicate 8 97, 1, [49], .kTypeValue⟩ : Entry), 1),
    (⟨List.replicate 8 98, 2, [50], .kTypeValue⟩, 1)], Insertable i := by decide
  obtain ⟨m, it, r, hm, hit, hr⟩ := exists_writtenTable hins (by decide) (by decide +kernel)
  refine ⟨m, it, r, hm, hit, hr, ?_⟩
  exact (inRange_buildTable_iff hm (by decide) hit rfl hr (by decide)).2 (by decide)

/-- The smallest user key of a memtable: the test leaves out the table that holds it. -/
theorem inRange_misses_smallest_key :
    ¬ ∀ (m : Memtable) (es : List Entry) (it : MemtableIterator) (env : BuildEnv) (name : String)
      (r : BuildResult) (u : Bytes), Holds m es → (∀ e ∈ es, e.seq < 2 ^ 56 - 1) →
        MemtableIterator.make m = .ok it → env.Succeeds → buildTable env name .make it = .ok r →
        (∃ e ∈ es, e.userKey = u) →
          r.fileMeta.inRange (createInternalKey u UINT64_MAX kTypeSeek) = .ok true := by
  intro h
  have hins : ∀ i ∈ [((⟨[97], 1, [49], .kTypeValue⟩ : Entry), 1)], Insertable i := by decide
  obtain ⟨m, it, r, hm, hit, hr⟩ := exists_writtenTable hins (by decide) (by decide +kernel)
  have hin := h m _ it .accepting "sstable_1" r [97] hm (by decide) hit
    BuildEnv.accepting_succeeds hr (by decide)
  obtain ⟨t, hmeta, hperm⟩ := hm.exists_tableFile (by decide) hit rfl hr
  have hhas : t.Has [97] := ⟨_, hperm.mem_iff.2 (List.mem_singleton_self _), rfl⟩
  rw [← hmeta] at hin
  obtain ⟨e, he, hlt⟩ := (TableFile.inRange_iff hhas).1 hin
  rw [List.mem_singleton.1 (hperm.mem_iff.1 he)] at hlt
  exact absurd hlt (by decide)

/-! ### The answer of the search -/

section Search

variable {lookup : FileMeta → Exec (Option Bytes)} {u : Bytes} {ts : List TableFile}

/-- **The loop answers with the first table that has the user key and a smaller one.** -/
theorem searchTables_eq (hlookup : ∀ t ∈ ts, lookup t.fileMeta = .ok (t.newest u)) :
    searchTables lookup (seekInternalKey u) (ts.map TableFile.fileMeta) =
      .ok ((ts.find? fun t => t.Has u ∧ t.HasSmaller u).bind fun t => t.newest u) := by
  induction ts with
  | nil => rfl
  | cons t ts ih =>
    obtain ⟨ht, hts⟩ := List.forall_mem_cons.1 hlookup
    have ih := ih hts
    obtain ⟨inRange, heq, hsmaller, hin⟩ := t.exists_inRange u
    rw [List.map_cons, searchTables, heq, Exec.ok_bind]
    by_cases hhas : t.Has u
    · by_cases hs : t.HasSmaller u
      · obtain ⟨e, -, he⟩ := TableFile.newest_eq_some hhas
        rw [List.find?_cons_of_pos (by simp [hhas, hs])]
        simp [hin hhas hs, ht, he]
      · rw [List.find?_cons_of_neg (by simp [hs]), if_neg (mt hsmaller hs), ih]
    · -- the table may be searched, and has nothing to answer with
      rw [List.find?_cons_of_neg (by simp [hhas])]
      simp [ht, TableFile.newest_eq_none.2 hhas, ih]

/-- The tables in creation order: later tables hold larger sequence numbers. -/
def CreationOrder (ts : List TableFile) : Prop :=
  ts.Pairwise fun t t' => ∀ e ∈ t.entries, ∀ e' ∈ t'.entries, e.seq < e'.seq

/-- The newest entry of a user key is in the last table that has the key. -/
theorem CreationOrder.newest_of_last (h : CreationOrder ts) {t : TableFile}
    (ht : ts.reverse.find? (fun t => t.Has u) = some t) {e : Entry}
    (he : Newest t.entries u UINT64_MAX e) :
    Newest (ts.flatMap TableFile.entries) u UINT64_MAX e := by
  obtain ⟨-, as, bs, hsplit, has⟩ := List.find?_eq_some_iff_append.1 ht
  have hts : ts = bs.reverse ++ t :: as.reverse := by
    have := congrArg List.reverse hsplit
    simpa using this
  unfold CreationOrder at h
  rw [hts] at h ⊢
  have hbefore : ∀ t' ∈ bs.reverse, ∀ e' ∈ t'.entries, e'.seq < e.seq := fun t' ht' e' he' =>
    (List.pairwise_append.1 h).2.2 t' ht' t List.mem_cons_self e' he' e he.mem
  rw [List.flatMap_append, List.flatMap_cons]
  refine ⟨by simp [he.mem], he.key_eq, he.ver_le, ?_⟩
  intro e' he' hk hle
  rcases List.mem_append.1 he' with he' | he'
  · obtain ⟨t', ht', he'⟩ := List.mem_flatMap.1 he'
    exact (hbefore t' ht' e' he').le
  · rcases List.mem_append.1 he' with he' | he'
    · exact he.newest e' he' hk hle
    · -- no table behind `t` has the key
      obtain ⟨t', ht', he'⟩ := List.mem_flatMap.1 he'
      have := has t' (List.mem_reverse.1 ht')
      exact absurd (show t'.Has u from ⟨e', he', hk⟩) (by simpa using this)

/-- No two entries have the same user key and the same sequence number. -/
theorem CreationOrder.nodup (h : CreationOrder ts) :
    ((ts.flatMap TableFile.entries).map Entry.rank).Nodup := by
  rw [List.Nodup, List.pairwise_map, List.pairwise_flatMap]
  refine ⟨fun t _ => t.sorted.imp fun hlt => hlt.ne, h.imp ?_⟩
  intro t t' hlt e he e' he' hrank
  exact (hlt e he e' he').ne (keyRank_inj.1 hrank).2

/-- **When the file search returns the most recent value.**  With tables in creation order and a
lookup that gives the newest value of each table, the loop returns the value of the entry of `u`
with the largest sequence number if and only if the first table that has `u` behind a smaller user
key has the same newest value as the last table that has `u`. -/
theorem search_returns_newest_iff (hord : CreationOrder ts)
    (hlookup : ∀ t ∈ ts, lookup t.fileMeta = .ok (t.newest u)) (hu : ∃ t ∈ ts, t.Has u) :
    (∃ e, Newest (ts.flatMap TableFile.entries) u UINT64_MAX e ∧
      searchTables lookup (seekInternalKey u) (ts.map TableFile.fileMeta) = .ok (some e.value)) ↔
    ∃ t ∈ ts.find? (fun t => t.Has u ∧ t.HasSmaller u),
      ∃ t' ∈ ts.reverse.find? (fun t => t.Has u), t.newest u = t'.newest u := by
  obtain ⟨t', ht'⟩ : ∃ t', ts.reverse.find? (fun t => t.Has u) = some t' := by
    obtain ⟨t, ht, hhas⟩ := hu
    exact Option.isSome_iff_exists.1
      (List.find?_isSome.2 ⟨t, by simpa using ht, by simpa using hhas⟩)
  have hhas' : t'.Has u := by simpa using List.find?_some ht'
  obtain ⟨e', he', hval'⟩ := TableFile.newest_eq_some hhas'
  have hnew := hord.newest_of_last ht' he'
  rw [searchTables_eq hlookup]
  constructor
  · rintro ⟨e, he, hsearch⟩
    obtain rfl : e = e' := List.inj_on_of_nodup_map hord.nodup he.mem hnew.mem
      (keyRank_inj.2 ⟨he.key_eq.trans hnew.key_eq.symm, he.ver_eq hnew⟩)
    obtain ⟨t, ht, hval⟩ := Option.bind_eq_some_iff.1 (Except.ok.inj hsearch)
    exact ⟨t, ht, t', ht', hval.trans hval'.symm⟩
  · rintro ⟨t, ht, t₁, ht₁, hval⟩
    cases ht'.symm.trans ht₁
    exact ⟨e', hnew, by rw [ht, Option.bind_some, hval, hval']⟩

end Search

/-- A table with the keys `a` and `b`, its number, its first sequence number and its value. -/
def twoKeys (number n : ℕ) (value : Bytes) (hn : n + 1 < storedSeq UINT64_MAX) : TableFile where
  fileMeta := ⟨100, number, createInternalKey [97] n .kTypeValue,
    createInternalKey [98] (n + 1) .kTypeValue⟩
  entries := [⟨[97], n, value, .kTypeValue⟩, ⟨[98], n + 1, value, .kTypeValue⟩]
  nonempty := by simp
  sorted := by
    simp only [List.pairwise_cons, List.mem_singleton, forall_eq, List.not_mem_nil,
      IsEmpty.forall_iff, implies_true, List.Pairwise.nil, and_self, and_true]
    exact keyRank_lt.2 (.inl (show ([97] : Bytes) < [98] by decide))
  older := by
    intro e he
    simp only [List.mem_cons, List.not_mem_nil, or_false] at he
    rcases he with rfl | rfl
    · exact (Nat.lt_succ_self n).trans hn
    · exact hn
  smallest := rfl
  largest := rfl

/-- One table with the key `b` behind the key `a`. -/
theorem search_returns_newest_iff_one_table :
    ∃ e, Newest ([twoKeys 1 1 [49] (by decide)].flatMap TableFile.entries) [98] UINT64_MAX e ∧
      searchTables (fun _ => .ok (some [49])) (seekInternalKey [98])
        ([twoKeys 1 1 [49] (by decide)].map TableFile.fileMeta) = .ok (some e.value) := by
  refine (search_returns_newest_iff (List.pairwise_singleton _ _) ?_ ?_).2 ?_
  · intro t ht
    rw [List.mem_singleton.1 ht]
    rfl
  · exact ⟨_, List.mem_singleton_self _, _, List.mem_cons_of_mem _ (List.mem_singleton_self _), rfl⟩
  · exact ⟨_, rfl, _, rfl, rfl⟩

/-- Two tables with the key `b`: the search returns the value of the older one. -/
theorem search_returns_oldest_value :
    ¬ ∀ (lookup : FileMeta → Exec (Option Bytes)) (ts : List TableFile) (u : Bytes),
      CreationOrder ts → (∀ t ∈ ts, lookup t.fileMeta = .ok (t.newest u)) → (∃ t ∈ ts, t.Has u) →
        ∃ e, Newest (ts.flatMap TableFile.entries) u UINT64_MAX e ∧
          searchTables lookup (seekInternalKey u) (ts.map TableFile.fileMeta) =
            .ok (some e.value) := by
  intro h
  obtain ⟨e, he, hsearch⟩ := h (fun m => .ok (some (if m.number = 1 then [49] else [50])))
    [twoKeys 1 1 [49] (by decide), twoKeys 2 3 [50] (by decide)] [98]
    (by unfold CreationOrder; decide) (by decide) (by decide)
  have hvalue : e.value = [49] := by
    have hrun : searchTables (fun m => .ok (some (if m.number = 1 then [49] else [50])))
        (seekInternalKey [98]) ([twoKeys 1 1 [49] (by decide),
          twoKeys 2 3 [50] (by decide)].map TableFile.fileMeta) = .ok (some [49]) := by
      decide +kernel
    exact (Option.some.inj (Except.ok.inj (hrun.symm.trans hsearch))).symm
  have hseq : 4 ≤ e.seq := he.newest ⟨[98], 4, [50], .kTypeValue⟩ (by decide) rfl (by decide)
  have hmem := he.mem
  simp only [twoKeys, List.flatMap_cons, List.flatMap_nil, List.append_nil, List.cons_append,
    List.nil_append, List.mem_cons, List.not_mem_nil, or_false] at hmem
  rcases hmem with rfl | rfl | rfl | rfl
  · exact absurd hseq (by decide)
  · exact absurd hseq (by decide)
  · exact absurd hseq (by decide)
  · exact absurd hvalue (by decide)

end KoishiDB
