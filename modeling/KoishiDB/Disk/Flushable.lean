import KoishiDB.Disk.OrderCheck

/-!
# Which memtables can be flushed

`BuildTable` passes the entries of a memtable to `TableBuilder::Add` in the order of their keys.
Two assertions of `Add` can stop it: the one on the order of the keys, which takes the last key as
a zero-terminated string, and the one that the data block is empty behind a full block, which
never holds because `Flush` does not reset it.  So every key has to pass the check behind the keys
in front of it, and all entries but the last one have to stay below `kBlockSize`.

Two versions of a short user key with small sequence numbers do not: the internal key of the newer
one has a zero byte early on, and `memcmp` finds no place where the user key is above it.

* `buildable_iff_flushable` : this is what `Flushable` says of the entries.
* `build_returns` : such entries are built into a table whatever the write calls do.
* `buildTable_copies_iff` : when a table file is a sorted and complete copy of a memtable.
-/

namespace KoishiDB

/-- Every entry passes the order assertion behind each entry with a smaller key, and the entries but
the one with the largest key take less than `kBlockSize` bytes. -/
def Flushable (es : List Entry) : Prop :=
  (∀ e ∈ es, ∀ e' ∈ es, e.rank < e'.rank → PassesCheck e.internalKey e'.userKey) ∧
    ∃ rest last, es.Perm (rest ++ [last]) ∧ (∀ e ∈ rest, e.rank < last.rank) ∧
      (blockImage (rest.map Entry.pair)).length < kBlockSize

theorem length_blockImage_perm {l l' : List (Bytes × Bytes)} (h : l.Perm l') :
    (blockImage l).length = (blockImage l').length :=
  (h.flatMap_right encodeEntry).length_eq

/-! ### The order assertion -/

/-- Larger user keys pass as well. -/
theorem PassesCheck.mono {k u u' : Bytes} (h : PassesCheck k u) (hle : u ≤ u') :
    PassesCheck k u' := by
  rcases hle.eq_or_lt with rfl | hlt
  · exact h
  · exact h.imp_right fun h => h.trans_lt hlt

namespace Entry

theorem take_internalKey (e : Entry) :
    e.internalKey.take (e.internalKey.length - 8) = e.userKey := by
  simp [internalKey, createInternalKey]

theorem userKey_le_of_rank_lt {e e' : Entry} (h : e.rank < e'.rank) : e.userKey ≤ e'.userKey := by
  rcases keyRank_lt.1 h with h | ⟨h, -⟩
  · exact h.le
  · exact h.le

/-- The comparison that the order assertion makes for two entries. -/
theorem compare_cut_iff {e e' : Entry} (he : e.Fits) (he' : e'.Fits) (hlt : e.rank < e'.rank) :
    (e.internalKey = [] ∨ internalKeyCompare e'.internalKey (.ofCStr e.internalKey) = .ok 1) ↔
      PassesCheck e.internalKey e'.userKey := by
  have hne : e.internalKey ≠ [] := List.ne_nil_of_length_pos (by
    have := e.le_length_internalKey
    omega)
  have hlen : e'.internalKey.length < 2 ^ 63 := by
    have := he'.1.key_lt
    rw [internalKey, length_createInternalKey]
    omega
  have hcompare : internalKeyCompare e'.internalKey e.internalKey = .ok 1 := by
    rw [compare_internalKey he' he, Except.ok.injEq, threeWay_eq_one]
    exact hlt
  rw [or_iff_right hne, compare_ofCStr_iff e.le_length_internalKey e'.le_length_internalKey hlen
    hcompare, e'.take_internalKey]

end Entry

section Sorted

variable {es : List Entry} (hsorted : es.Pairwise fun a b => a.rank < b.rank)
include hsorted

/-- Sorted entries that pass the assertion one behind the other pass it behind all in front. -/
theorem pairwise_passesCheck
    (hchain : es.IsChain fun e e' => PassesCheck e.internalKey e'.userKey) :
    es.Pairwise fun e e' => PassesCheck e.internalKey e'.userKey := by
  induction es with
  | nil => exact .nil
  | cons e es ih =>
    cases es with
    | nil => exact List.pairwise_singleton _ _
    | cons e₁ es =>
      rw [List.isChain_cons_cons] at hchain
      have hrest := (List.pairwise_cons.1 hsorted).2
      refine List.pairwise_cons.2 ⟨fun e' he' => hchain.1.mono ?_, ih hrest hchain.2⟩
      rcases List.mem_cons.1 he' with rfl | he'
      · exact le_rfl
      · exact Entry.userKey_le_of_rank_lt ((List.pairwise_cons.1 hrest).1 e' he')

theorem isChain_passesCheck_iff :
    (es.IsChain fun e e' => PassesCheck e.internalKey e'.userKey) ↔
      ∀ e ∈ es, ∀ e' ∈ es, e.rank < e'.rank → PassesCheck e.internalKey e'.userKey := by
  constructor
  · intro hchain
    refine List.Pairwise.forall_of_forall_of_flip (fun e _ hlt => absurd hlt (lt_irrefl _)) ?_ ?_
    · refine (pairwise_passesCheck hsorted hchain).imp ?_
      intro e e' h _
      exact h
    · exact hsorted.imp fun hlt hlt' => absurd hlt hlt'.not_gt
  · intro h
    exact hsorted.isChain.imp_of_mem_imp fun e e' he he' hlt => h e he e' he' hlt

end Sorted

/-- The order assertion of `TableBuilder::Add`, for sorted entries. -/
theorem isChain_cut_iff {es : List Entry} (hsorted : es.Pairwise fun a b => a.rank < b.rank)
    (hfits : ∀ e ∈ es, e.Fits) :
    ((es.map Entry.pair).IsChain fun p p' =>
        p.1 = [] ∨ internalKeyCompare p'.1 (.ofCStr p.1) = .ok 1) ↔
      ∀ e ∈ es, ∀ e' ∈ es, e.rank < e'.rank → PassesCheck e.internalKey e'.userKey := by
  rw [List.isChain_map, ← isChain_passesCheck_iff hsorted]
  induction es with
  | nil => simp
  | cons e es ih =>
    cases es with
    | nil => simp
    | cons e' es =>
      rw [List.forall_mem_cons] at hfits
      rw [List.pairwise_cons] at hsorted
      rw [List.isChain_cons_cons, List.isChain_cons_cons, ih hsorted.2 hfits.2]
      exact and_congr_left' (Entry.compare_cut_iff hfits.1 (hfits.2 e' (by simp))
        (hsorted.1 e' (by simp)))

section Flushable

variable {es es' : List Entry}

/-- The pairs of sorted entries increase strictly. -/
theorem pairs_sorted (hsorted : es'.Pairwise fun a b => a.rank < b.rank)
    (hfits : ∀ e ∈ es', e.Fits) :
    (es'.map Entry.pair).Pairwise fun p p' => internalKeyCompare p.1 p'.1 = .ok (-1) := by
  rw [List.pairwise_map]
  refine hsorted.imp_of_mem ?_
  intro e e' he he' hlt
  change internalKeyCompare e.internalKey e'.internalKey = _
  rw [Entry.compare_internalKey (hfits e he) (hfits e' he'), Except.ok.injEq, threeWay_eq_neg_one]
  exact hlt

/-- The last of sorted entries is the largest one, however the entries are listed. -/
theorem eq_of_perm_concat {rest rest' : List Entry} {last last' : Entry}
    (hperm : (rest' ++ [last']).Perm (rest ++ [last]))
    (hsorted : (rest' ++ [last']).Pairwise fun a b => a.rank < b.rank)
    (hlast : ∀ e ∈ rest, e.rank < last.rank) : last' = last ∧ rest'.Perm rest := by
  have hmax : last.rank ≤ last'.rank := by
    have hmem : last ∈ rest' ++ [last'] := hperm.mem_iff.2 (by simp)
    rcases List.mem_append.1 hmem with hmem | hmem
    · exact ((List.pairwise_append.1 hsorted).2.2 last hmem last' (by simp)).le
    · rw [List.mem_singleton.1 hmem]
  have heq : last' = last := by
    have hmem : last' ∈ rest ++ [last] := hperm.mem_iff.1 (by simp)
    rcases List.mem_append.1 hmem with hmem | hmem
    · exact absurd hmax (hlast last' hmem).not_ge
    · exact List.mem_singleton.1 hmem
  rw [heq] at hperm
  exact ⟨heq, (List.perm_append_right_iff _).1 hperm⟩

/-- **`Flushable` is what the builder asks of the entries**, whatever their order of insertion. -/
theorem buildable_iff_flushable (hperm : es'.Perm es) (hne : es' ≠ [])
    (hsorted : es'.Pairwise fun a b => a.rank < b.rank) (hfits : ∀ e ∈ es', e.Fits) :
    TableBuilder.Buildable internalKeyCompare (es'.map Entry.pair) ↔ Flushable es := by
  have horder : (es'.map Entry.pair).IsChain fun p p' => internalKeyCompare p'.1 p.1 = .ok 1 := by
    rw [List.isChain_map]
    refine hsorted.isChain.imp_of_mem_imp fun e e' he he' hlt => ?_
    change internalKeyCompare e'.internalKey e.internalKey = _
    rw [Entry.compare_internalKey (hfits e' he') (hfits e he), Except.ok.injEq, threeWay_eq_one]
    exact hlt
  have hcut : ((es'.map Entry.pair).IsChain fun p p' =>
      p.1 = [] ∨ internalKeyCompare p'.1 (.ofCStr p.1) = .ok 1) ↔
      ∀ e ∈ es, ∀ e' ∈ es, e.rank < e'.rank → PassesCheck e.internalKey e'.userKey := by
    simp only [isChain_cut_iff hsorted hfits, hperm.mem_iff]
  obtain ⟨rest', last', rfl⟩ := List.eq_nil_or_concat es' |>.resolve_left hne
  rw [List.concat_eq_append] at *
  have hdrop : ((rest' ++ [last']).map Entry.pair).dropLast = rest'.map Entry.pair := by simp
  constructor
  · rintro ⟨hsize, hchain, -⟩
    rw [hdrop] at hsize
    refine ⟨hcut.1 hchain, rest', last', hperm.symm, ?_, hsize⟩
    intro e he
    exact (List.pairwise_append.1 hsorted).2.2 e he last' (by simp)
  · rintro ⟨hpass, rest, last, hperm', hrest, hsize⟩
    obtain ⟨-, hp⟩ := eq_of_perm_concat (hperm.trans hperm') hsorted hrest
    refine ⟨?_, hcut.2 hpass, horder.imp fun _ _ h => .inr h⟩
    rw [hdrop, length_blockImage_perm (hp.map Entry.pair)]
    exact hsize

end Flushable

/-! ### Building whatever the write calls do -/

namespace TableBuilder

variable {os : ℕ → WriteResult} {cmp : Comparator} {l : List (Bytes × Bytes)} {n : ℕ}
  {b : TableBuilder}

/-- The builder has the entries `l`, and its data block was written at most `n` times, with or
without success. -/
structure Loose (l : List (Bytes × Bytes)) (n : ℕ) (b : TableBuilder) : Prop where
  dataBlock : b.dataBlock = ⟨blockImage l, lastKeyOf l⟩
  indexBlock : b.indexBlock = .make
  small : b.filterBlock.Small
  keyed : l ≠ [] → b.filterBlock.Keyed
  offsets : b.filterBlock.filterOffsets.length = b.offset / kFilterBase
  weight : b.filterBlock.weight ≤ 19 * l.length
  offset : b.offset ≤ n * (blockImage l).length
  closed : b.closed = false
  lastKey : b.lastKey = lastKeyOf l
  handle : b.pendingIndexBlock = true → b.blockHandle.IsSet

theorem Stage.loose (h : Stage os l 0 b) : Loose l 0 b where
  dataBlock := h.dataBlock
  indexBlock := h.indexBlock
  small := h.small
  keyed := h.keyed
  offsets := h.offsets
  weight := h.weight
  offset := h.offset.le
  closed := h.closed
  lastKey := h.lastKey
  handle := fun hp => absurd (h.pending.symm.trans hp) (by decide)

/-- **`Flush`** returns, and leaves the data block pending if it reports success. -/
theorem flush_loose (h : Loose l n b) (hne : l ≠ [])
    (hsize : (n + 1) * (blockImage l).length < 2 ^ 63) :
    ∃ b', b.flush = .ok b' ∧ Loose l (n + 1) b' ∧
      (b'.status = .OK → b'.pendingIndexBlock = true) := by
  have hempty : b.dataBlock.empty = false := by
    have := blockImage_ne_nil hne
    simpa [BlockBuilder.empty, BlockBuilder.estimatedSize, h.dataBlock] using this
  have hfin : b.dataBlock.finish = blockImage l := by rw [h.dataBlock]; rfl
  have hoffset := h.offset
  rw [Nat.add_mul, Nat.one_mul] at hsize
  obtain ⟨st, f, ⟨hst, hw⟩ | ⟨hst, hw⟩⟩ := writeBlock_cases b (blockImage l) b.blockHandle
  · -- the block is appended; what becomes of the flush of the file does not matter
    have hoff : u64 (b.offset + (blockImage l).length) = b.offset + (blockImage l).length :=
      u64_of_lt (by omega)
    rw [hoff] at hw
    have hle : b.filterBlock.filterOffsets.length ≤
        (b.offset + (blockImage l).length) / kFilterBase := by
      rw [h.offsets]
      exact Nat.div_le_div_right (Nat.le_add_right _ _)
    obtain ⟨filter, hfilter, hsmall, hlen, hweight, -, hkeyed⟩ :=
      FilterBlockBuilder.startBlock_spec h.small hle
    cases hfl : f.flush with
    | mk st' f' =>
      refine ⟨{ b with
        status := st', file := f', offset := b.offset + (blockImage l).length
        blockHandle := ⟨b.offset, (blockImage l).length⟩
        pendingIndexBlock := true, filterBlock := filter }, ?_, ?_, fun _ => rfl⟩
      · simp only [flush, h.closed, Exec.require, ↓reduceIte, Exec.ok_bind, hempty,
          Bool.false_eq_true, hfin, hw, hst, Status.ok, Bool.not_true, hfl, hfilter, Exec.pure_eq]
      · refine ⟨h.dataBlock, h.indexBlock, hsmall, fun hl => hkeyed (h.keyed hl), hlen,
          hweight.trans h.weight, ?_, h.closed, h.lastKey, ?_⟩
        · rw [Nat.add_mul, Nat.one_mul]
          exact Nat.add_le_add_right h.offset _
        · intro _
          change b.offset < UINT64_MAX ∧ (blockImage l).length < UINT64_MAX
          unfold UINT64_MAX
          omega
  · refine ⟨{ b with status := st, file := f }, ?_, ?_, fun hok => absurd hok hst⟩
    · have hok : st.ok = false := by rwa [← Bool.not_eq_true, Status.ok_eq_true_iff]
      simp only [flush, h.closed, Exec.require, ↓reduceIte, Exec.ok_bind, hempty,
        Bool.false_eq_true, hfin, hw, hok, Bool.not_false, Exec.pure_eq]
    · refine ⟨h.dataBlock, h.indexBlock, h.small, h.keyed, h.offsets, h.weight, ?_, h.closed,
        h.lastKey, h.handle⟩
      exact h.offset.trans (Nat.mul_le_mul_right _ (Nat.le_succ n))

/-- A data block is pending, and the numbers that go into the index and the footer are small. -/
structure Ready (b : TableBuilder) : Prop where
  pending : b.pendingIndexBlock = true
  indexBlock : b.indexBlock = .make
  handle : b.blockHandle.IsSet
  key_lt : b.lastKey.length < 2 ^ 32
  offset_lt : b.offset < 2 ^ 52

theorem isSet_of_lt {h : BlockHandle} (h1 : h.offset < 2 ^ 53) (h2 : h.size < 2 ^ 53) :
    h.IsSet := by
  unfold BlockHandle.IsSet UINT64_MAX
  omega

/-- The filter block is written, and its handle is set on success. -/
theorem writeFilterBlock_loose (h : Loose l n b) (hne : l ≠ []) (hn : n ≤ 2)
    (hsize : (blockImage l).length < 2 ^ 40) (hkey : (lastKeyOf l).length < 2 ^ 32)
    (hpend : b.pendingIndexBlock = true) :
    ∃ b' handle, { b with closed := true }.writeFilterBlock = .ok (b', handle) ∧
      (b'.status = .OK → handle.IsSet ∧ Ready b') := by
  obtain ⟨filter, filterBlock, hfin, -, -, hflen⟩ :=
    FilterBlockBuilder.finish_spec h.small (h.keyed hne)
  have hoff : b.offset ≤ 2 * (blockImage l).length :=
    h.offset.trans (Nat.mul_le_mul_right _ hn)
  have hlt : filter.length < 2 ^ 50 := by
    have h1 := h.weight
    have h2 := h.offsets
    have h3 := two_mul_length_le l
    have h4 := Nat.div_le_self b.offset kFilterBase
    omega
  simp only [writeFilterBlock, hfin, Exec.ok_bind, Exec.pure_eq]
  obtain ⟨st, f, ⟨hst, hw⟩ | ⟨hst, hw⟩⟩ :=
    writeBlock_cases { b with closed := true, filterBlock := filterBlock } filter .make
  · rw [hw]
    refine ⟨_, _, rfl, fun _ => ⟨isSet_of_lt (h := ⟨b.offset, filter.length⟩) ?_ ?_, hpend,
      h.indexBlock, h.handle hpend, by rw [h.lastKey]; exact hkey, ?_⟩⟩
    · dsimp only
      omega
    · dsimp only
      omega
    · change u64 (b.offset + filter.length) < _
      rw [u64_of_lt (by omega)]
      omega
  · rw [hw]
    exact ⟨_, _, rfl, fun hok => absurd hok hst⟩

/-- The index block is written, and its handle is set on success. -/
theorem writeIndexBlock_ready (cmp : Comparator) (h : Ready b) :
    ∃ b' handle, b.writeIndexBlock cmp = .ok (b', handle) ∧ (b'.status = .OK → handle.IsSet) := by
  have hadd : b.indexBlock.add cmp b.lastKey b.blockHandle.bytes =
      .ok ⟨blockImage [(b.lastKey, b.blockHandle.bytes)], b.lastKey⟩ := by
    simp [BlockBuilder.add, h.indexBlock, BlockBuilder.make, requireAfter]
  have hlt : (blockImage [(b.lastKey, b.blockHandle.bytes)]).length < 2 ^ 40 := by
    have h1 := length_encodeEntry_le (b.lastKey, b.blockHandle.bytes)
    have h2 := b.blockHandle.length_bytes_le
    have h3 := h.key_lt
    rw [blockImage_cons, blockImage_nil, List.append_nil]
    dsimp only at h1
    omega
  simp only [writeIndexBlock, addLastPending, h.pending, ↓reduceIte, addIndexEntry,
    BlockHandle.encodeTo_of_isSet h.handle, Exec.ok_bind, hadd, Exec.pure_eq, BlockBuilder.finish]
  obtain ⟨st, f, ⟨hst, hw⟩ | ⟨hst, hw⟩⟩ := writeBlock_cases { b with
    indexBlock := ⟨blockImage [(b.lastKey, b.blockHandle.bytes)], b.lastKey⟩
    pendingIndexBlock := false } (blockImage [(b.lastKey, b.blockHandle.bytes)]) .make
  · rw [hw]
    refine ⟨_, _, rfl, fun _ => ?_⟩
    have hoff := h.offset_lt
    refine isSet_of_lt ?_ ?_
    · dsimp only
      omega
    · dsimp only
      omega
  · rw [hw]
    exact ⟨_, _, rfl, fun hok => absurd hok hst⟩

theorem writeFooter_of_isSet (b : TableBuilder) {index filter : BlockHandle} (hi : index.IsSet)
    (hf : filter.IsSet) : ∃ b', b.writeFooter index filter = .ok b' := by
  obtain ⟨hencode, -⟩ := Footer.encodeTo_spec (f := ⟨index, filter⟩) hi hf
  simp only [writeFooter, hencode, Exec.ok_bind, Exec.pure_eq]
  cases b.file.append _ with
  | mk st f =>
    dsimp only
    split
    · exact ⟨_, rfl⟩
    · exact ⟨_, rfl⟩

/-- **`Finish`** returns. -/
theorem finish_loose (cmp : Comparator) (h : Loose l n b) (hne : l ≠ []) (hn : n ≤ 1)
    (hsize : (blockImage l).length < 2 ^ 40) (hkey : (lastKeyOf l).length < 2 ^ 32) :
    ∃ r, b.finish cmp = .ok r := by
  have hmul : (n + 1) * (blockImage l).length ≤ 2 * (blockImage l).length :=
    Nat.mul_le_mul_right _ (by omega)
  obtain ⟨b₁, hfl, h₁, hpend⟩ := flush_loose h hne (by omega)
  -- every part that is reached has been told success by the part in front of it
  obtain ⟨m, hm⟩ : ∃ m, b.finishBlocks cmp = .ok m := by
    simp only [finishBlocks, hfl, Exec.ok_bind]
    by_cases hst₁ : b₁.status = .OK
    · obtain ⟨b₂, filter, hb₂, hset₂⟩ :=
        writeFilterBlock_loose h₁ hne (by omega) hsize hkey (hpend hst₁)
      rw [if_neg (fun hbad => not_ok_iff.1 hbad hst₁), hb₂, Exec.ok_bind]
      by_cases hst₂ : b₂.status = .OK
      · obtain ⟨hfilter, hready⟩ := hset₂ hst₂
        obtain ⟨b₃, index, hb₃, hset₃⟩ := writeIndexBlock_ready cmp hready
        dsimp only
        rw [if_neg (fun hbad => not_ok_iff.1 hbad hst₂), hb₃, Exec.ok_bind]
        by_cases hst₃ : b₃.status = .OK
        · dsimp only
          rw [if_neg (fun hbad => not_ok_iff.1 hbad hst₃)]
          exact writeFooter_of_isSet b₃ (hset₃ hst₃) hfilter
        · exact ⟨_, if_pos (not_ok_iff.2 hst₃)⟩
      · exact ⟨_, if_pos (not_ok_iff.2 hst₂)⟩
    · exact ⟨_, if_pos (not_ok_iff.2 hst₁)⟩
  simp only [finish, hm, Exec.ok_bind]
  split
  · exact ⟨_, rfl⟩
  · exact ⟨_, rfl⟩

/-- **A `Buildable` list is built, whatever the write calls do.** -/
theorem build_returns (os : ℕ → WriteResult) (name : String) (hne : l ≠ [])
    (hfits : ∀ e ∈ l, BlockIterator.EntryFits e) (hl : Buildable cmp l) :
    ∃ r, build cmp os name l = .ok r := by
  have hsize := image_lt_of_buildable hfits hl
  have hkey := lastKeyOf_lt hfits
  obtain ⟨l, e, rfl⟩ : ∃ l' e, l = l' ++ [e] := by
    obtain ⟨l', e, rfl⟩ := List.eq_nil_or_concat l |>.resolve_left hne
    exact ⟨l', e, List.concat_eq_append⟩
  obtain ⟨hbelow, hcut, hord, hl⟩ := buildable_append.1 hl
  obtain ⟨m, hm, hs, -⟩ := addAll_below os name hbelow hl
  have hpush := (pushEntry_stage hs hbelow e).loose
  -- the last entry may fill the block
  obtain ⟨b, hb, n, hn, hloose⟩ : ∃ b, (make (.make os name)).addAll cmp (l ++ [e]) = .ok b ∧
      ∃ n, n ≤ 1 ∧ Loose (l ++ [e]) n b := by
    rw [addAll_append, hm, Exec.ok_bind, add_of_stage hs hcut hord]
    by_cases hfull : kBlockSize ≤ (blockImage (l ++ [e])).length
    · obtain ⟨b, hb, hloose, -⟩ := flush_loose hpush (by simp) (by omega)
      exact ⟨b, by rw [if_pos hfull, hb], 1, le_rfl, hloose⟩
    · exact ⟨_, if_neg hfull, 0, Nat.zero_le 1, hpush⟩
  obtain ⟨r, hr⟩ := finish_loose cmp hloose (by simp) hn hsize hkey
  exact ⟨r, by rw [build, hb]; exact hr⟩

end TableBuilder

/-! ### The copy of a memtable -/

/-- What `BuildTable` has to do with the entries of a memtable: it passes their pairs to
`TableBuilder::Add`, each once and in increasing order, and the file meta has the first and the
last key, so that every key lies between the two. -/
structure Copies (es : List Entry) (r : BuildResult) : Prop where
  perm : r.added.Perm (es.map Entry.pair)
  sorted : r.added.Pairwise fun p p' => internalKeyCompare p.1 p'.1 = .ok (-1)
  smallest : r.added.head?.map Prod.fst = some r.fileMeta.smallestKey
  largest : r.added.getLast?.map Prod.fst = some r.fileMeta.largestKey
  between : ∀ p ∈ r.added, (∃ c ≤ 0, internalKeyCompare r.fileMeta.smallestKey p.1 = .ok c) ∧
    ∃ c ≤ 0, internalKeyCompare p.1 r.fileMeta.largestKey = .ok c

section Copy

variable {it : MemtableIterator} {l : List (Bytes × Bytes)} {env : BuildEnv} {name : String}
  {m : FileMeta} {es : List Entry}

/-- `BuildTable` returns if the builder does. -/
theorem exists_buildTable (hy : it.Yields l) (hlen : l.length ≤ it.table.nodes.length)
    (hne : l ≠ []) (hkeys : ∀ e ∈ l, 8 ≤ e.1.length) (hopens : env.opens = true)
    (hbuild : ∃ r, TableBuilder.build internalKeyCompare env.os name l = .ok r) (m : FileMeta) :
    ∃ r, buildTable env name m it = .ok r := by
  obtain ⟨⟨st, b⟩, hbuild⟩ := hbuild
  obtain ⟨b₁, hadd, hfin⟩ := Exec.bind_eq_ok.1 hbuild
  obtain ⟨e, l, rfl⟩ := List.exists_cons_of_ne_nil hne
  have hvalid : it.valid = true := hy.1
  have hseek : it.seekToFirst = .ok () := Exec.require_of hvalid
  have hkey : it.key = .ok e.1 := hy.2.1
  obtain ⟨x, hx⟩ : ∃ x, (e :: l).getLast? = some x := by
    cases hl : (e :: l).getLast? with
    | none => simp at hl
    | some x => exact ⟨x, rfl⟩
  have hprint : ∀ size, FileMeta.print ⟨size, m.number, e.1, x.1⟩ = .ok () := fun size =>
    FileMeta.print_eq_ok.2 ⟨hkeys e (by simp), hkeys x (List.mem_of_getLast? hx)⟩
  simp only [buildTable, hseek, hvalid, hopens, Bool.not_true, Bool.false_eq_true, ↓reduceIte, hkey,
    buildLoop_eq hy (Nat.lt_succ_of_le hlen), hadd, hfin, Exec.ok_bind, hx, Option.map_some,
    Option.getD_some, hprint, Exec.pure_eq]
  split
  · exact ⟨_, rfl⟩
  · exact ⟨_, rfl⟩

/-- What a `BuildTable` call that returns has done with the entries of a memtable. -/
theorem Holds.copies {mt : Memtable} (hm : Holds mt es) (hit : MemtableIterator.make mt = .ok it)
    (hopens : env.opens = true) {r : BuildResult} (h : buildTable env name m it = .ok r) :
    Copies es r := by
  obtain ⟨es', hperm, hsorted, hne, hadded, b, -, hcase⟩ := hm.buildTable_cases hit hopens h
  have hfits : ∀ e ∈ es', e.Fits := fun e he => hm.fits e (hperm.mem_iff.1 he)
  have hkeys : r.fileMeta.smallestKey = firstKeyOf r.added ∧
      r.fileMeta.largestKey = lastKeyOf r.added := by
    rcases hcase with ⟨-, hmeta, -⟩ | ⟨-, hmeta, -⟩ <;> rw [hmeta] <;> exact ⟨rfl, rfl⟩
  rw [hadded] at hkeys
  have hle : ∀ e ∈ es', ∀ e' ∈ es', e.rank ≤ e'.rank →
      ∃ c ≤ 0, internalKeyCompare e.internalKey e'.internalKey = .ok c := by
    intro e he e' he' hr
    refine ⟨_, ?_, Entry.compare_internalKey (hfits e he) (hfits e' he')⟩
    unfold threeWay
    split_ifs with h1 h2
    · decide
    · exact le_rfl
    · exact absurd (lt_of_le_of_ne hr h2) h1
  obtain ⟨x, xs, hcons⟩ := List.exists_cons_of_ne_nil hne
  obtain ⟨ys, y, hconcat⟩ := List.eq_nil_or_concat es' |>.resolve_left hne
  rw [List.concat_eq_append] at hconcat
  have hfirst : r.fileMeta.smallestKey = x.internalKey := by rw [hkeys.1, hcons]; rfl
  have hlast : r.fileMeta.largestKey = y.internalKey := by
    rw [hkeys.2, hconcat, List.map_append, List.map_singleton, lastKeyOf_append]
    rfl
  refine ⟨?_, ?_, ?_, ?_, ?_⟩
  · rw [hadded]
    exact hperm.map _
  · rw [hadded]
    exact pairs_sorted hsorted hfits
  · rw [hadded, hfirst, hcons]
    rfl
  · rw [hadded, hlast, hconcat]
    simp [Entry.pair]
  · -- the first entry is the smallest and the last the largest
    rw [hadded, hfirst, hlast, List.forall_mem_map]
    intro e he
    refine ⟨hle x (by simp [hcons]) e he ?_, hle e he y (by simp [hconcat]) ?_⟩
    · rw [hcons] at he hsorted
      rcases List.mem_cons.1 he with rfl | he
      · exact le_rfl
      · exact ((List.pairwise_cons.1 hsorted).1 e he).le
    · rw [hconcat] at he hsorted
      rcases List.mem_append.1 he with he | he
      · exact ((List.pairwise_append.1 hsorted).2.2 e he y (by simp)).le
      · rw [List.mem_singleton.1 he]

/-- What `BuildTable` writes, with every write accepted, has entries and is `Flushable`. -/
theorem Holds.flushable_of_buildTable {mt : Memtable} (hm : Holds mt es)
    (hit : MemtableIterator.make mt = .ok it) (hs : env.Succeeds) {r : BuildResult}
    (h : buildTable env name m it = .ok r) : es ≠ [] ∧ Flushable es := by
  obtain ⟨es', hperm, hsorted, hfits, hy, hlen⟩ := hm.exists_yields hit
  obtain ⟨hne, hcase⟩ := KoishiDB.buildTable_cases hy hlen h
  have hne' : es' ≠ [] := fun hnil => hne (by rw [hnil]; rfl)
  refine ⟨fun hnil => hne' (List.perm_nil.1 (hnil ▸ hperm)), ?_⟩
  obtain ⟨hclosed, -⟩ | ⟨-, -, b, hbuild, -⟩ := hcase
  · rw [hs.1] at hclosed
    cases hclosed
  · obtain ⟨b₁, hadd, -⟩ := Exec.bind_eq_ok.1 hbuild
    exact (buildable_iff_flushable hperm hne' hsorted hfits).1 (TableBuilder.addAll_buildable hs.2
      (List.forall_mem_map.2 fun e he => (hfits e he).entryFits) hadd)

/-- A memtable with entries that is `Flushable` is written, whatever the write calls do. -/
theorem Holds.buildTable_of_flushable {mt : Memtable} (hm : Holds mt es) (hne : es ≠ [])
    (hit : MemtableIterator.make mt = .ok it) (hf : Flushable es) (hopens : env.opens = true)
    (name : String) (m : FileMeta) : ∃ r, buildTable env name m it = .ok r := by
  obtain ⟨es', hperm, hsorted, hfits, hy, hlen⟩ := hm.exists_yields hit
  have hne' : es' ≠ [] := fun hnil => hne (List.nil_perm.1 (hnil ▸ hperm))
  have hl := (buildable_iff_flushable hperm hne' hsorted hfits).2 hf
  refine exists_buildTable hy hlen (by simpa using hne') ?_ hopens ?_ m
  · exact List.forall_mem_map.2 fun e _ => e.le_length_internalKey
  · exact TableBuilder.build_returns env.os name (by simpa using hne')
      (List.forall_mem_map.2 fun e he => (hfits e he).entryFits) hl

/-- **Which memtables `BuildTable` can write.** -/
theorem Holds.buildTable_iff {mt : Memtable} (hm : Holds mt es) (hne : es ≠ [])
    (hit : MemtableIterator.make mt = .ok it) :
    (∀ (env : BuildEnv) (name : String) (m : FileMeta), env.opens = true →
      ∃ r, buildTable env name m it = .ok r) ↔ Flushable es := by
  constructor
  · intro h
    obtain ⟨r, hr⟩ := h .accepting "sstable_1" .make rfl
    exact (hm.flushable_of_buildTable hit BuildEnv.accepting_succeeds hr).2
  · intro hf env name m hopens
    exact hm.buildTable_of_flushable hne hit hf hopens name m

end Copy

/-- **When a table is a sorted and complete copy of a memtable.**  For every memtable that was
filled by insertions under distinct sequence numbers, in any order and with any heights of the
nodes: every `BuildTable` call that can open its file returns and has copied the memtable, if and
only if the entries are `Flushable`. -/
theorem buildTable_copies_iff (size₀ : ℕ) {inserts : List (Entry × ℕ)} (hne : inserts ≠ [])
    (hins : ∀ i ∈ inserts, Insertable i) (hseqs : (inserts.map fun i => i.1.seq).Nodup) :
    ∃ m it, (Memtable.make size₀).insertEntries inserts = .ok m ∧
      MemtableIterator.make m = .ok it ∧
      ((∀ (env : BuildEnv) (name : String) (fm : FileMeta), env.opens = true →
          ∃ r, buildTable env name fm it = .ok r ∧ Copies (inserts.map Prod.fst) r) ↔
        Flushable (inserts.map Prod.fst)) := by
  have hdistinct : ((inserts.map Prod.fst).map Entry.rank).Nodup :=
    nodup_rank_of_seq (by rw [List.map_map]; exact hseqs)
  obtain ⟨m, hm, hholds⟩ := (Holds.make size₀).insertEntries hins hdistinct
  rw [List.nil_append] at hholds
  obtain ⟨it, -, hit, -⟩ := hholds.yields
  refine ⟨m, it, hm, hit, ?_⟩
  rw [← hholds.buildTable_iff (by simpa using hne) hit]
  constructor
  · intro h env name fm hopens
    obtain ⟨r, hr, -⟩ := h env name fm hopens
    exact ⟨r, hr⟩
  · intro h env name fm hopens
    obtain ⟨r, hr⟩ := h env name fm hopens
    exact ⟨r, hr, hholds.copies hit hopens hr⟩

/-- Two short keys; what is left of the first has the smaller byte in front. -/
theorem buildTable_copies_two_keys :
    ∃ m it, (Memtable.make 0).insertEntries [(⟨[98], 1, [49], .kTypeValue⟩, 1),
        (⟨[97], 2, [50], .kTypeValue⟩, 3)] = .ok m ∧
      MemtableIterator.make m = .ok it ∧
      ∀ (env : BuildEnv) (name : String) (fm : FileMeta), env.opens = true →
        ∃ r, buildTable env name fm it = .ok r ∧ Copies [⟨[98], 1, [49], .kTypeValue⟩,
          ⟨[97], 2, [50], .kTypeValue⟩] r := by
  have hins : ∀ i ∈ [((⟨[98], 1, [49], .kTypeValue⟩ : Entry), 1),
    (⟨[97], 2, [50], .kTypeValue⟩, 3)], Insertable i := by decide
  obtain ⟨m, it, hm, hit, hiff⟩ := buildTable_copies_iff 0 (by simp) hins (by decide)
  have hlt : (⟨[97], 2, [50], .kTypeValue⟩ : Entry).rank <
      Entry.rank ⟨[98], 1, [49], .kTypeValue⟩ := keyRank_lt.2 (.inl (by decide))
  refine ⟨m, it, hm, hit, hiff.2 ⟨?_, [⟨[97], 2, [50], .kTypeValue⟩],
    ⟨[98], 1, [49], .kTypeValue⟩, .swap _ _ _, by simpa using hlt, by decide⟩⟩
  simp only [List.map_cons, List.map_nil, List.mem_cons, List.not_mem_nil, or_false]
  rintro e (rfl | rfl) e' (rfl | rfl) hlt'
  · exact absurd hlt' (lt_irrefl _)
  · exact absurd hlt' hlt.not_gt
  · decide
  · exact absurd hlt' (lt_irrefl _)

/-- Two versions of the key `a`: `BuildTable` stops at the order assertion for the older one. -/
theorem buildTable_stops_at_older_version :
    ¬ ∀ (inserts : List (Entry × ℕ)) (m : Memtable) (it : MemtableIterator) (env : BuildEnv)
      (name : String), inserts ≠ [] → (∀ i ∈ inserts, Insertable i) →
        (inserts.map fun i => i.1.seq).Nodup → (Memtable.make 0).insertEntries inserts = .ok m →
        MemtableIterator.make m = .ok it → env.Succeeds →
          ∃ r, buildTable env name .make it = .ok r ∧ Copies (inserts.map Prod.fst) r := by
  intro h
  have hrun : ((Memtable.make 0).insertEntries [((⟨[97], 1, [], .kTypeValue⟩ : Entry), 1),
      (⟨[97], 2, [], .kTypeValue⟩, 1)] >>= fun m => MemtableIterator.make m >>= fun it =>
        .ok (m, it, (buildTable .accepting "sstable_1" .make it).toOption.isSome)).map
          (fun x => x.2.2) = .ok false := by decide +kernel
  obtain ⟨⟨m, it, b⟩, hx, hb⟩ := Exec.exists_of_map hrun
  obtain ⟨m', hm, hx⟩ := Exec.bind_eq_ok.1 hx
  obtain ⟨it', hit, hx⟩ := Exec.bind_eq_ok.1 hx
  cases hx
  obtain ⟨r, hr, -⟩ := h _ m it .accepting "sstable_1" (by simp) (by decide) (by decide) hm hit
    BuildEnv.accepting_succeeds
  rw [hr] at hb
  cases hb

end KoishiDB
