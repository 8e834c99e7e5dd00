import KoishiDB.Disk.TableBuilder
import KoishiDB.Disk.TableImage
import Mathlib.Data.List.Chain
import Mathlib.Data.List.Induction

/-!
# The round trip through a table

What `TableBuilder` writes when no write call fails, and when reading it back gives the entries
that went in.

The data block is never reset: `Flush` writes it and leaves it as it is.  Once it has been flushed
the next `Add` call therefore meets the assertion that it is empty, so a table can only be built if
the data block reaches `kBlockSize` with its last entry or not at all; in the first case `Finish`
writes it a second time (`Stage os l n b` counts the copies).  The order assertion of `Add` takes
the last key as a zero-terminated string.

* `addAll_stage`, `addAll_buildable` : the `Add` calls go through if and only if the list is
  `Buildable`.
* `finish_stage` : `Finish` then writes a table of one data block that stores the list.
* `roundTrips_iff` : **the round trip** holds if and only if the list is `Buildable` and its block
  is shorter than `2 ^ 32` bytes.
-/

namespace KoishiDB

/-- The key of the last entry; the empty string for the empty list. -/
def lastKeyOf (l : List (Bytes × Bytes)) : Bytes := (l.getLast?.map Prod.fst).getD []

@[simp] theorem lastKeyOf_append (l : List (Bytes × Bytes)) (e : Bytes × Bytes) :
    lastKeyOf (l ++ [e]) = e.1 := by
  simp [lastKeyOf]

/-! ### The stages of a build -/

namespace TableBuilder

/-- The builder has the entries `l` and has written the data block `n` times. -/
structure Stage (os : ℕ → WriteResult) (l : List (Bytes × Bytes)) (n : ℕ) (b : TableBuilder) :
    Prop where
  os_eq : b.file.os = os
  content : b.file.fd ++ b.file.buf = (List.replicate n (blockImage l)).flatten
  dataBlock : b.dataBlock = ⟨blockImage l, lastKeyOf l⟩
  indexBlock : b.indexBlock = .make
  small : b.filterBlock.Small
  waiting : b.filterBlock.start.length ≤ l.length
  keyed : l ≠ [] → b.filterBlock.Keyed
  offsets : b.filterBlock.filterOffsets.length = b.offset / kFilterBase
  weight : b.filterBlock.weight ≤ 19 * l.length
  offset : b.offset = n * (blockImage l).length
  closed : b.closed = false
  pending : b.pendingIndexBlock = decide (0 < n)
  handle : 0 < n → b.blockHandle = ⟨(n - 1) * (blockImage l).length, (blockImage l).length⟩
  lastKey : b.lastKey = lastKeyOf l
  status : b.status = .OK

variable {os : ℕ → WriteResult} {cmp : Comparator} {l : List (Bytes × Bytes)} {n : ℕ}
  {b b' : TableBuilder}

theorem stage_make (os : ℕ → WriteResult) (name : String) :
    Stage os [] 0 (make (.make os name)) where
  os_eq := rfl
  content := rfl
  dataBlock := rfl
  indexBlock := rfl
  small := ⟨by simp [make, FilterBlockBuilder.make], .inl ⟨rfl, rfl⟩⟩
  waiting := le_rfl
  keyed := fun h => absurd rfl h
  offsets := (Nat.zero_div _).symm
  weight := le_rfl
  offset := rfl
  closed := rfl
  pending := rfl
  handle := fun h => absurd h (by decide)
  lastKey := rfl
  status := rfl

theorem blockImage_ne_nil (h : l ≠ []) : blockImage l ≠ [] := by
  have h1 := two_mul_length_le l
  have h2 := List.length_pos_iff.2 h
  intro h0
  rw [h0] at h1
  simp only [List.length_nil] at h1
  omega

/-- `WriteBlock` on a file that accepts everything. -/
theorem writeBlock_of_accepting (hos : ∀ i, (b.file.os i).failed = false) (content : Bytes)
    (handle : BlockHandle) :
    ∃ f, b.writeBlock content handle =
        ({ b with status := .OK, file := f, offset := u64 (b.offset + content.length) },
          ⟨b.offset, content.length⟩) ∧
      f.os = b.file.os ∧ f.fd ++ f.buf = b.file.fd ++ b.file.buf ++ content := by
  obtain ⟨f, hf, hos', hc⟩ := WritableFile.append_of_accepting hos content
  exact ⟨f, by simp [writeBlock, hf, Status.ok], hos', hc⟩

/-- **`Flush`** writes the data block once more. -/
theorem flush_stage (hs : Stage os l n b) (hos : ∀ i, (os i).failed = false) (hne : l ≠ [])
    (hsize : (n + 1) * (blockImage l).length < 2 ^ 63) :
    ∃ b', b.flush = .ok b' ∧ Stage os l (n + 1) b' ∧
      b.filterBlock.startBlock b'.offset = .ok b'.filterBlock := by
  have hempty : b.dataBlock.empty = false := by
    have := blockImage_ne_nil hne
    simpa [BlockBuilder.empty, BlockBuilder.estimatedSize, hs.dataBlock] using this
  have hfin : b.dataBlock.finish = blockImage l := by rw [hs.dataBlock]; rfl
  have hoff : u64 (b.offset + (blockImage l).length) = (n + 1) * (blockImage l).length := by
    rw [hs.offset, Nat.add_mul, Nat.one_mul, u64_of_lt]
    rw [Nat.add_mul, Nat.one_mul] at hsize
    omega
  obtain ⟨f₁, hw, hos₁, hc₁⟩ := writeBlock_of_accepting (b := b) (by rw [hs.os_eq]; exact hos)
    (blockImage l) b.blockHandle
  obtain ⟨f₂, hfl, hos₂, hfd₂, hbuf₂⟩ := WritableFile.flush_of_accepting (f := f₁)
    (by rw [hos₁, hs.os_eq]; exact hos)
  have hle : b.filterBlock.filterOffsets.length ≤
      (n + 1) * (blockImage l).length / kFilterBase := by
    rw [hs.offsets, hs.offset]
    exact Nat.div_le_div_right (Nat.mul_le_mul_right _ (Nat.le_succ n))
  -- `StartBlock` generates filters up to the new offset, which is at or behind the old one.
  obtain ⟨filter, hfilter, hsmall, hlen, hweight, hwait, hkeyed⟩ :=
    FilterBlockBuilder.startBlock_spec hs.small hle
  refine ⟨{ b with
    status := .OK, file := f₂, offset := (n + 1) * (blockImage l).length
    blockHandle := ⟨b.offset, (blockImage l).length⟩
    pendingIndexBlock := true, filterBlock := filter }, ?_, ?_, hfilter⟩
  · simp only [flush, hs.closed, Exec.require, ↓reduceIte, Exec.ok_bind, hempty,
      Bool.false_eq_true, hfin, hw, Status.ok, Bool.not_true, hfl, hoff, hfilter, Exec.pure_eq]
  · refine ⟨hos₂.trans (hos₁.trans hs.os_eq), ?_, hs.dataBlock, hs.indexBlock, hsmall,
      hwait.trans hs.waiting, fun h => hkeyed (hs.keyed h), hlen, hweight.trans hs.weight, rfl,
      hs.closed, by simp, ?_, hs.lastKey, rfl⟩
    · change f₂.fd ++ f₂.buf = _
      rw [hbuf₂, List.append_nil, hfd₂, hc₁, hs.content, List.replicate_succ', List.flatten_append]
      simp
    · intro _
      change (⟨b.offset, (blockImage l).length⟩ : BlockHandle) = _
      rw [hs.offset, Nat.add_sub_cancel]

/-- The filter block has been given the keys of the entries, and then the data blocks up to the
offset. -/
def Fed (l : List (Bytes × Bytes)) (b : TableBuilder) : Prop :=
  (FilterBlockBuilder.ofKeys (l.map Prod.fst)).startBlock b.offset = .ok b.filterBlock

/-- Before the first flush all keys are waiting. -/
theorem fed_of_offset_eq_zero (h : b.offset = 0) :
    Fed l b ↔ b.filterBlock = FilterBlockBuilder.ofKeys (l.map Prod.fst) := by
  have hoffsets := (FilterBlockBuilder.ofKeys_frame (l.map Prod.fst)).2.1
  simp [Fed, FilterBlockBuilder.startBlock, h, hoffsets, Exec.require,
    FilterBlockBuilder.generateFilters, eq_comm]

theorem fed_make (os : ℕ → WriteResult) (name : String) : Fed [] (make (.make os name)) :=
  (fed_of_offset_eq_zero rfl).2 rfl

theorem Fed.flush (h : Fed l b) (hs : Stage os l n b)
    (hstart : b.filterBlock.startBlock b'.offset = .ok b'.filterBlock) : Fed l b' :=
  FilterBlockBuilder.startBlock_startBlock hs.offsets h hstart

/-! ### The `Add` calls -/

/-- The lists whose `Add` calls go through: all entries but the last stay below `kBlockSize`, and
every key passes the two order assertions. -/
structure Buildable (cmp : Comparator) (l : List (Bytes × Bytes)) : Prop where
  size : (blockImage l.dropLast).length < kBlockSize
  cut : l.IsChain fun e e' => e.1 = [] ∨ cmp e'.1 (.ofCStr e.1) = .ok 1
  order : l.IsChain fun e e' => e.1 = [] ∨ cmp e'.1 e.1 = .ok 1

/-- How often the data block has been written after the `Add` calls. -/
def flushes (l : List (Bytes × Bytes)) : ℕ := if kBlockSize ≤ (blockImage l).length then 1 else 0

theorem flushes_le (l : List (Bytes × Bytes)) : flushes l ≤ 1 := by
  unfold flushes; split <;> decide

theorem flushes_eq_zero : flushes l = 0 ↔ (blockImage l).length < kBlockSize := by
  unfold flushes
  split_ifs with h
  · simp; omega
  · simp; omega

/-- The order assertion for the next key, seen from the list. -/
theorem isChain_append_singleton {R : Bytes × Bytes → Bytes × Bytes → Prop} {e : Bytes × Bytes} :
    (l ++ [e]).IsChain R ↔ l.IsChain R ∧ ∀ x ∈ l.getLast?, R x e := by
  rw [List.isChain_append]
  simp

theorem lastKeyOf_rel {P : Bytes → Prop} (h0 : P []) :
    (∀ x ∈ l.getLast?, P x.1) ↔ P (lastKeyOf l) := by
  unfold lastKeyOf
  cases l.getLast? <;> simp [h0]

theorem buildable_append {e : Bytes × Bytes} : Buildable cmp (l ++ [e]) ↔
    (blockImage l).length < kBlockSize ∧
      (lastKeyOf l = [] ∨ cmp e.1 (.ofCStr (lastKeyOf l)) = .ok 1) ∧
      (lastKeyOf l = [] ∨ cmp e.1 (lastKeyOf l) = .ok 1) ∧ Buildable cmp l := by
  have hcut := lastKeyOf_rel (l := l) (P := fun k => k = [] ∨ cmp e.1 (.ofCStr k) = .ok 1)
    (.inl rfl)
  have hord := lastKeyOf_rel (l := l) (P := fun k => k = [] ∨ cmp e.1 k = .ok 1) (.inl rfl)
  constructor
  · rintro ⟨hs, hc, ho⟩
    rw [List.dropLast_concat] at hs
    rw [isChain_append_singleton] at hc ho
    exact ⟨hs, hcut.1 hc.2, hord.1 ho.2,
      (length_blockImage_le (List.dropLast_prefix l)).trans_lt hs, hc.1, ho.1⟩
  · rintro ⟨hs, h1, h2, -, hc, ho⟩
    refine ⟨by rwa [List.dropLast_concat], ?_, ?_⟩
    · exact isChain_append_singleton.2 ⟨hc, hcut.2 h1⟩
    · exact isChain_append_singleton.2 ⟨ho, hord.2 h2⟩

/-- The entry is added to the blocks. -/
theorem pushEntry_stage (hs : Stage os l 0 b) (hsize : (blockImage l).length < kBlockSize)
    (e : Bytes × Bytes) : Stage os (l ++ [e]) 0 (b.pushEntry (b.grown e.1 e.2) e.1) := by
  have hlen : (b.filterBlock.addKey e.1).start.length = b.filterBlock.start.length + 1 := by
    simp [FilterBlockBuilder.addKey]
  have hw := hs.waiting
  have hfew := two_mul_length_le l
  unfold kBlockSize at hsize
  refine ⟨hs.os_eq, hs.content, ?_, hs.indexBlock, ⟨?_, hs.small.first⟩, ?_,
    fun _ => .inl ?_, hs.offsets, ?_, ?_, hs.closed, hs.pending,
    fun h => absurd h (by decide), (lastKeyOf_append l e).symm, hs.status⟩
  · simp [pushEntry, grown, hs.dataBlock, blockImage_append]
  · change (b.filterBlock.addKey e.1).start.length * 10 < 2 ^ 31
    omega
  · change (b.filterBlock.addKey e.1).start.length ≤ _
    rw [hlen, List.length_append, List.length_singleton]
    omega
  · change (b.filterBlock.addKey e.1).start ≠ []
    simp [FilterBlockBuilder.addKey]
  · have := hs.weight
    unfold FilterBlockBuilder.weight at this ⊢
    change b.filterBlock.result.length + 19 * (b.filterBlock.addKey e.1).start.length ≤ _
    rw [hlen, List.length_append, List.length_singleton]
    omega
  · rw [Nat.zero_mul]
    exact hs.offset.trans (Nat.zero_mul _)

/-- The key of the entry is one more key that waits. -/
theorem Fed.push (hfed : Fed l b) (h0 : b.offset = 0) (e : Bytes × Bytes) :
    Fed (l ++ [e]) (b.pushEntry (b.grown e.1 e.2) e.1) := by
  rw [fed_of_offset_eq_zero h0] at hfed
  have h0' : (b.pushEntry (b.grown e.1 e.2) e.1).offset = 0 := h0
  rw [fed_of_offset_eq_zero h0', List.map_append, List.map_singleton,
    FilterBlockBuilder.ofKeys_append, ← hfed]
  rfl

/-- **An `Add` call in order** adds the entry, and flushes a block that is full. -/
theorem add_of_stage (hs : Stage os l 0 b) {e : Bytes × Bytes}
    (hcut : lastKeyOf l = [] ∨ cmp e.1 (.ofCStr (lastKeyOf l)) = .ok 1)
    (hord : lastKeyOf l = [] ∨ cmp e.1 (lastKeyOf l) = .ok 1) :
    b.add cmp e.1 e.2 =
      if kBlockSize ≤ (blockImage (l ++ [e])).length then
        (b.pushEntry (b.grown e.1 e.2) e.1).flush
      else .ok (b.pushEntry (b.grown e.1 e.2) e.1) := by
  have hrep : (b.grown e.1 e.2).rep = blockImage (l ++ [e]) := by
    simp [grown, hs.dataBlock, blockImage_append]
  have hdata : b.dataBlock.add cmp e.1 e.2 = .ok (b.grown e.1 e.2) := by
    have : requireAfter cmp e.1 b.dataBlock.lastKey b.dataBlock.lastKey
        "last_key.empty() || opt_->cmp->Compare(key, last_key) == 1" = .ok () :=
      requireAfter_eq_ok.2 (by rw [hs.dataBlock]; exact hord)
    simp only [BlockBuilder.add, this, Exec.ok_bind, Exec.pure_eq, grown]
  have h1 : requireAfter cmp e.1 b.lastKey (.ofCStr b.lastKey)
      "r->last_key.empty() || r->opt->cmp->Compare(key, r->last_key.c_str()) == 1" = .ok () :=
    requireAfter_eq_ok.2 (by rw [hs.lastKey]; exact hcut)
  have h2 : b.addPending cmp = .ok b := by simp [addPending, hs.pending]
  simp only [add, hs.closed, Exec.require, ↓reduceIte, Exec.ok_bind, h1, h2, hdata,
    Exec.pure_eq, ge_iff_le, ← hrep]
  rfl

theorem addAll_append {e : Bytes × Bytes} :
    b.addAll cmp (l ++ [e]) = (b.addAll cmp l >>= fun m => m.add cmp e.1 e.2) := by
  rw [addAll, List.foldlM_append]
  congr 1
  funext m
  cases hm : m.add cmp e.1 e.2 <;> simp [hm]

/-- The `Add` calls that stay below `kBlockSize` write nothing, so they go through whatever the
write calls would do. -/
theorem addAll_below (os : ℕ → WriteResult) (name : String)
    (hsize : (blockImage l).length < kBlockSize) (hl : Buildable cmp l) :
    ∃ b, (make (.make os name)).addAll cmp l = .ok b ∧ Stage os l 0 b ∧ Fed l b := by
  induction l using List.reverseRecOn with
  | nil => exact ⟨_, rfl, stage_make os name, fed_make os name⟩
  | append_singleton l e ih =>
    obtain ⟨hsize', hcut, hord, hl⟩ := buildable_append.1 hl
    obtain ⟨m, hm, hs, hfed⟩ := ih hsize' hl
    refine ⟨m.pushEntry (m.grown e.1 e.2) e.1, ?_, pushEntry_stage hs hsize' e,
      hfed.push (by rw [hs.offset, Nat.zero_mul]) e⟩
    rw [addAll_append, hm, Exec.ok_bind, add_of_stage hs hcut hord, if_neg (not_le.2 hsize)]

/-- The `Add` calls for a `Buildable` list go through. -/
theorem addAll_stage (hos : ∀ i, (os i).failed = false) (name : String)
    (hfits : ∀ e ∈ l, BlockIterator.EntryFits e) (hl : Buildable cmp l) :
    ∃ b, (make (.make os name)).addAll cmp l = .ok b ∧ Stage os l (flushes l) b ∧ Fed l b := by
  by_cases hbelow : (blockImage l).length < kBlockSize
  · rw [flushes_eq_zero.2 hbelow]
    exact addAll_below os name hbelow hl
  -- Only the last entry can make the block full; it is written at once, and keeps its entries.
  · obtain ⟨l, e, rfl⟩ : ∃ l' e, l = l' ++ [e] := by
      rcases List.eq_nil_or_concat l with rfl | ⟨l', e, rfl⟩
      · exact absurd (by decide) hbelow
      · exact ⟨l', e, List.concat_eq_append⟩
    obtain ⟨hsize, hcut, hord, hl⟩ := buildable_append.1 hl
    obtain ⟨m, hm, hs, hfed⟩ := addAll_below os name hsize hl
    have hbound : (0 + 1) * (blockImage (l ++ [e])).length < 2 ^ 63 := by
      have := length_encodeEntry_le e
      obtain ⟨h1, h2⟩ := hfits e (by simp)
      rw [blockImage_append, blockImage_cons, blockImage_nil, List.append_nil, List.length_append]
      unfold kBlockSize at hsize
      omega
    have hpush := pushEntry_stage hs hsize e
    obtain ⟨b, hb, hs', hstart⟩ := flush_stage hpush hos (by simp) hbound
    have hfull := not_lt.1 hbelow
    refine ⟨b, ?_, by rw [flushes, if_pos hfull]; exact hs',
      (hfed.push (by rw [hs.offset, Nat.zero_mul]) e).flush hpush hstart⟩
    rw [addAll_append, hm, Exec.ok_bind, add_of_stage hs hcut hord, if_pos hfull, hb]

/-- A list whose `Add` calls go through is `Buildable`. -/
theorem addAll_buildable (hos : ∀ i, (os i).failed = false) {name : String}
    (hfits : ∀ e ∈ l, BlockIterator.EntryFits e)
    (h : (make (.make os name)).addAll cmp l = .ok b) : Buildable cmp l := by
  induction l using List.reverseRecOn generalizing b with
  | nil => exact ⟨by decide, .nil, .nil⟩
  | append_singleton l e ih =>
    rw [addAll_append] at h
    obtain ⟨m, hm, hadd⟩ := Exec.bind_eq_ok.1 h
    have hfits' : ∀ e ∈ l, BlockIterator.EntryFits e :=
      fun e he => hfits e (List.mem_append_left _ he)
    have hl := ih hfits' hm
    obtain ⟨m', hm', hs, -⟩ := addAll_stage hos name hfits' hl
    cases hm.symm.trans hm'
    obtain ⟨-, hpend, hcut, hord, -⟩ :=
      add_cases (addAll_adding (adding_make os name) hm) hadd
    rw [hs.pending] at hpend
    have hsize : (blockImage l).length < kBlockSize := flushes_eq_zero.1 (by simpa using hpend)
    rw [hs.lastKey] at hcut
    rw [hs.dataBlock] at hord
    exact buildable_append.2 ⟨hsize, hcut, hord, hl⟩

/-! ### `Finish` -/

/-- The index block, for a data block that has been written `n` times before `Finish`. -/
def indexImage (l : List (Bytes × Bytes)) (n : ℕ) : Bytes :=
  blockImage [(lastKeyOf l,
    (⟨n * (blockImage l).length, (blockImage l).length⟩ : BlockHandle).bytes)]

/-- The table that `Finish` writes from a builder whose data block has been written `n` times,
the last time by `Finish` itself. -/
def layout (l : List (Bytes × Bytes)) (n : ℕ) (filter : Bytes) : TableLayout where
  front := (List.replicate n (blockImage l)).flatten
  filter := filter
  lastKey := lastKeyOf l
  handle := ⟨(n - 1) * (blockImage l).length, (blockImage l).length⟩

theorem length_front (n : ℕ) (filter : Bytes) :
    (layout l n filter).front.length = n * (blockImage l).length := by
  simp [layout]

theorem layout_stores {filter : Bytes} (hne : l ≠ []) (hn : 0 < n) (hzero : 0 ∈ filter)
    (hkey : (lastKeyOf l).length < 2 ^ 32) (hsmall : (layout l n filter).fileSize < 2 ^ 63) :
    (layout l n filter).Stores l := by
  obtain ⟨n, rfl⟩ := Nat.exists_eq_succ_of_ne_zero hn.ne'
  refine ⟨?_, rfl, hne, hkey, hzero, hsmall⟩
  have hfront : (layout l (n + 1) filter).front =
      (List.replicate n (blockImage l)).flatten ++ blockImage l := by
    simp [layout, List.replicate_succ', List.flatten_append]
  change (((layout l (n + 1) filter).front.drop ((n + 1 - 1) * (blockImage l).length)).take
    (blockImage l).length) = _
  rw [hfront, List.drop_left' (by simp), List.take_length]

/-- The size of the table, for a block of moderate size. -/
theorem fileSize_lt {filter : Bytes} (hn : n ≤ 2) (hsize : (blockImage l).length < 2 ^ 40)
    (hkey : (lastKeyOf l).length < 2 ^ 32)
    (hfilter : filter.length ≤ 19 * l.length + 4 * (n * (blockImage l).length / kFilterBase) + 9) :
    (layout l n filter).fileSize < 2 ^ 63 := by
  have hcount := two_mul_length_le l
  have hprod : n * (blockImage l).length ≤ 2 * (blockImage l).length := Nat.mul_le_mul_right _ hn
  have hdiv : n * (blockImage l).length / kFilterBase ≤ n * (blockImage l).length :=
    Nat.div_le_self _ _
  have hindex : (layout l n filter).index.length ≤ (lastKeyOf l).length + 20 + 10 := by
    have h1 := length_encodeEntry_le (lastKeyOf l, (layout l n filter).handle.bytes)
    have h2 := (layout l n filter).handle.length_bytes_le
    change (blockImage [(lastKeyOf l, (layout l n filter).handle.bytes)]).length ≤ _
    rw [blockImage_cons, blockImage_nil, List.append_nil]
    dsimp only at h1
    omega
  unfold TableLayout.fileSize kFixedFooterSize
  rw [length_front]
  change n * (blockImage l).length + filter.length + (layout l n filter).index.length + 40 < _
  omega

/-- What the handles of the footer are made of, none of them with a zero byte. -/
theorem footer_cString {t : TableLayout} (ht : t.Stores l) :
    cString (t.footer.handles ++
      List.replicate (kFixedFooterSize - t.footer.handles.length) 0) = t.footer.handles := by
  have hfilter : 0 < t.filter.length := List.length_pos_of_mem ht.zero
  have hfront : 0 < t.front.length := by
    have h1 := ht.offset_add_size_le
    have h2 := ht.image_pos
    rw [ht.size_eq] at h1
    omega
  have hindex : 0 < t.index.length := by
    have := two_le_length_encodeEntry (t.lastKey, t.handle.bytes)
    rw [TableLayout.index, blockImage_cons, blockImage_nil, List.append_nil]
    omega
  exact Footer.cString_handles
    (BlockHandle.zero_notMem_bytes ht.index_isSet (Nat.add_pos_left hfront _) hindex)
    (BlockHandle.zero_notMem_bytes ht.filter_isSet hfront hfilter) _

/-- No write has failed, the file has the given content, and the offset is the given one. -/
structure Written (os : ℕ → WriteResult) (b : TableBuilder) (content : Bytes) (offset : ℕ) :
    Prop where
  os_eq : b.file.os = os
  status : b.status = .OK
  content : b.file.fd ++ b.file.buf = content
  offset : b.offset = offset

/-- `WriteBlock` of a block that still fits a 64-bit offset. -/
theorem writeBlock_written {content : Bytes} {offset : ℕ} (hw : Written os b content offset)
    (hos : ∀ i, (os i).failed = false) {block : Bytes} (hlt : offset + block.length < 2 ^ 64)
    (handle : BlockHandle) :
    ∃ f, b.writeBlock block handle =
        ({ b with status := .OK, file := f, offset := offset + block.length },
          ⟨offset, block.length⟩) ∧
      Written os { b with status := .OK, file := f, offset := offset + block.length }
        (content ++ block) (offset + block.length) := by
  obtain ⟨f, hf, hos', hc⟩ := writeBlock_of_accepting (b := b) (by rw [hw.os_eq]; exact hos)
    block handle
  rw [hw.offset, u64_of_lt hlt] at hf
  exact ⟨f, hf, hos'.trans hw.os_eq, rfl, by rw [← hw.content]; exact hc, rfl⟩

/-- The part of `Finish` that writes the filter block leaves alone what the index block needs. -/
theorem writeFilterBlock_written {content filter : Bytes} {offset : ℕ}
    {filterBlock : FilterBlockBuilder} (hw : Written os b content offset)
    (hos : ∀ i, (os i).failed = false) (hfin : b.filterBlock.finish = .ok (filter, filterBlock))
    (hlt : offset + filter.length < 2 ^ 64) :
    ∃ b', b.writeFilterBlock = .ok (b', ⟨offset, filter.length⟩) ∧
      Written os b' (content ++ filter) (offset + filter.length) ∧
      b'.pendingIndexBlock = b.pendingIndexBlock ∧ b'.indexBlock = b.indexBlock ∧
      b'.blockHandle = b.blockHandle ∧ b'.lastKey = b.lastKey := by
  have hw₁ : Written os { b with filterBlock := filterBlock } content offset :=
    ⟨hw.os_eq, hw.status, hw.content, hw.offset⟩
  obtain ⟨f, hf, hw'⟩ := writeBlock_written hw₁ hos hlt .make
  refine ⟨_, ?_, hw', rfl, rfl, rfl, rfl⟩
  simp only [writeFilterBlock, hfin, Exec.ok_bind, Exec.pure_eq, hf]

/-- The part of `Finish` that writes the index block, with the entry of the last data block. -/
theorem writeIndexBlock_written (cmp : Comparator) {content : Bytes} {offset : ℕ}
    (hw : Written os b content offset) (hos : ∀ i, (os i).failed = false)
    (hpend : b.pendingIndexBlock = true) (hindex : b.indexBlock = .make)
    (hset : b.blockHandle.IsSet)
    (hlt : offset + (blockImage [(b.lastKey, b.blockHandle.bytes)]).length < 2 ^ 64) :
    ∃ b', b.writeIndexBlock cmp =
        .ok (b', ⟨offset, (blockImage [(b.lastKey, b.blockHandle.bytes)]).length⟩) ∧
      Written os b' (content ++ blockImage [(b.lastKey, b.blockHandle.bytes)])
        (offset + (blockImage [(b.lastKey, b.blockHandle.bytes)]).length) := by
  have hadd : b.indexBlock.add cmp b.lastKey b.blockHandle.bytes =
      .ok ⟨blockImage [(b.lastKey, b.blockHandle.bytes)], b.lastKey⟩ := by
    simp [BlockBuilder.add, hindex, BlockBuilder.make, requireAfter]
  have hpending : b.addLastPending cmp = .ok { b with
      indexBlock := ⟨blockImage [(b.lastKey, b.blockHandle.bytes)], b.lastKey⟩
      pendingIndexBlock := false } := by
    simp only [addLastPending, hpend, ↓reduceIte, addIndexEntry,
      BlockHandle.encodeTo_of_isSet hset, Exec.ok_bind, hadd, Exec.pure_eq]
  have hw₁ : Written os { b with
      indexBlock := ⟨blockImage [(b.lastKey, b.blockHandle.bytes)], b.lastKey⟩
      pendingIndexBlock := false } content offset :=
    ⟨hw.os_eq, hw.status, hw.content, hw.offset⟩
  obtain ⟨f, hf, hw'⟩ := writeBlock_written hw₁ hos hlt .make
  refine ⟨_, ?_, hw'⟩
  simp only [writeIndexBlock, hpending, Exec.ok_bind, Exec.pure_eq, BlockBuilder.finish, hf]

/-- The part of `Finish` that writes the footer. -/
theorem writeFooter_written {t : TableLayout} (ht : t.Stores l) (hos : ∀ i, (os i).failed = false)
    {content : Bytes}
    (hw : Written os b content (t.front.length + t.filter.length + t.index.length)) :
    ∃ b', b.writeFooter t.footer.index t.footer.filter = .ok b' ∧
      Written os b' (content ++ t.footer.handles) t.fileSize := by
  obtain ⟨hencode, hlen⟩ := Footer.encodeTo_spec (f := t.footer) ht.index_isSet ht.filter_isSet
  obtain ⟨f, hf, hos', hc⟩ := WritableFile.append_of_accepting (f := b.file)
    (by rw [hw.os_eq]; exact hos) t.footer.handles
  have hoff : u64 (b.offset + (t.footer.handles ++
      List.replicate (kFixedFooterSize - t.footer.handles.length) 0).length) = t.fileSize := by
    have := ht.small
    rw [hlen, hw.offset]
    exact u64_of_lt (by unfold TableLayout.fileSize at this; omega)
  refine ⟨{ b with status := .OK, file := f, offset := t.fileSize }, ?_,
    hos'.trans hw.os_eq, rfl, by rw [← hw.content]; exact hc, rfl⟩
  have hencode : Footer.encodeTo ⟨t.footer.index, t.footer.filter⟩ = _ := hencode
  simp only [writeFooter, hencode, Exec.ok_bind, footer_cString ht, hf, Status.ok, Bool.not_true,
    Bool.false_eq_true, ↓reduceIte, hoff, Exec.pure_eq]

/-- The last data block and the filter block that `Finish` writes. -/
theorem flush_layout (hs : Stage os l n b) (hfed : Fed l b) (hos : ∀ i, (os i).failed = false)
    (hne : l ≠ []) (hn : n ≤ 1) (hsize : (blockImage l).length < 2 ^ 40)
    (hkey : (lastKeyOf l).length < 2 ^ 32) :
    ∃ b₁ filter filterBlock, b.flush = .ok b₁ ∧ Stage os l (n + 1) b₁ ∧ Fed l b₁ ∧
      b₁.filterBlock.finish = .ok (filter, filterBlock) ∧ (layout l (n + 1) filter).Stores l := by
  have hmul : (n + 1) * (blockImage l).length ≤ 2 * (blockImage l).length :=
    Nat.mul_le_mul_right _ (by omega)
  obtain ⟨b₁, hfl, hs₁, hstart⟩ := flush_stage hs hos hne (by omega)
  obtain ⟨filter, filterBlock, hfin, hzero, -, hflen⟩ :=
    FilterBlockBuilder.finish_spec hs₁.small (hs₁.keyed hne)
  -- the filters take 19 bytes a key, and an offset for each `kFilterBase` bytes of data
  have hfilter : filter.length ≤
      19 * l.length + 4 * ((n + 1) * (blockImage l).length / kFilterBase) + 9 := by
    have h1 := hs₁.weight
    have h2 := hs₁.offsets
    rw [hs₁.offset] at h2
    omega
  have hfs := fileSize_lt (n := n + 1) (by omega) hsize hkey hfilter
  exact ⟨b₁, filter, filterBlock, hfl, hs₁, hfed.flush hs hstart, hfin,
    layout_stores (n := n + 1) hne (Nat.succ_pos n) hzero hkey hfs⟩

/-- **`Finish`** writes a table that stores the entries. -/
theorem finish_stage (cmp : Comparator) {b₁ : TableBuilder} {filter : Bytes}
    {filterBlock : FilterBlockBuilder} (hos : ∀ i, (os i).failed = false) (hfl : b.flush = .ok b₁)
    (hs₁ : Stage os l (n + 1) b₁) (hfin : b₁.filterBlock.finish = .ok (filter, filterBlock))
    (ht : (layout l (n + 1) filter).Stores l) :
    ∃ b', b.finish cmp = .ok (.OK, b') ∧ b'.file.fd = (layout l (n + 1) filter).content ∧
      b'.fileSize = (layout l (n + 1) filter).fileSize ∧
      b.finishFooter cmp = .ok (layout l (n + 1) filter).footer := by
  generalize htl : layout l (n + 1) filter = t at ht ⊢
  have hfront : t.front = (List.replicate (n + 1) (blockImage l)).flatten := by rw [← htl]; rfl
  have htf : t.filter = filter := by rw [← htl]; rfl
  have htk : t.lastKey = lastKeyOf l := by rw [← htl]; rfl
  have hth : b₁.blockHandle = t.handle := by rw [hs₁.handle (Nat.succ_pos n), ← htl]; rfl
  have hoff : b₁.offset = t.front.length := by rw [hs₁.offset, hfront]; simp
  have hsum := ht.small
  unfold TableLayout.fileSize at hsum
  have hw₁ : Written os { b₁ with closed := true } t.front t.front.length :=
    ⟨hs₁.os_eq, hs₁.status, hs₁.content.trans hfront.symm, hoff⟩
  have hfin₁ : { b₁ with closed := true }.filterBlock.finish = .ok (t.filter, filterBlock) := by
    rw [htf]; exact hfin
  -- the filter block, the index block and the footer go behind the data, one after the other
  obtain ⟨b₂, hb₂, hw₂, hpend₂, hidx₂, hh₂, hk₂⟩ :=
    writeFilterBlock_written hw₁ hos hfin₁ (by omega)
  have hindex : blockImage [(b₂.lastKey, b₂.blockHandle.bytes)] = t.index := by
    rw [hk₂, hh₂, hs₁.lastKey, ← htk, hth]; rfl
  obtain ⟨b₃, hb₃, hw₃⟩ := writeIndexBlock_written cmp hw₂ hos
    (by rw [hpend₂, hs₁.pending]; simp) (hidx₂.trans hs₁.indexBlock)
    (by rw [hh₂, hth]; exact ht.handle_isSet) (by rw [hindex]; omega)
  rw [hindex] at hb₃ hw₃
  obtain ⟨b₄, hb₄, hw₄⟩ := writeFooter_written ht hos hw₃
  obtain ⟨f₅, hf₅, -, hfd₅, -⟩ := WritableFile.flush_of_accepting (f := b₄.file)
    (by rw [hw₄.os_eq]; exact hos)
  refine ⟨{ b₄ with file := f₅ }, ?_, ?_, hw₄.offset, ?_⟩
  · have hb₄' : b₃.writeFooter ⟨t.front.length + t.filter.length, t.index.length⟩
        ⟨t.front.length, t.filter.length⟩ = .ok b₄ := hb₄
    have hok : ∀ {s : Status}, s = .OK → s.ok = true := Status.ok_eq_true_iff.2
    simp only [finish, finishBlocks, hfl, Exec.ok_bind, hok hs₁.status, hb₂, hok hw₂.status, hb₃,
      hok hw₃.status, hb₄', hok hw₄.status, hf₅, Bool.not_true, Bool.false_eq_true, ↓reduceIte,
      Exec.pure_eq]
    rw [hw₄.status]
  · change f₅.fd = t.content
    rw [hfd₅, hw₄.content]
    simp only [TableLayout.content, List.append_assoc]
  · simp only [finishFooter, hfl, Exec.ok_bind, hb₂, hb₃, Exec.pure_eq]
    rfl

/-! ### The round trip -/

/-- The round trip of a list of entries through a table: it is built without a fault and with the
status OK, the table opens, and iterating from its start visits exactly the entries. -/
def RoundTrips (cmp : Comparator) (os : ℕ → WriteResult) (name : String)
    (l : List (Bytes × Bytes)) : Prop :=
  ∃ b, build cmp os name l = .ok (.OK, b) ∧
    ∃ t, SSTable.openTable (.ofContent (some b.file.fd)) b.fileSize = .ok (some t) ∧
      ∃ it, t.newIterator.seekToFirst = .ok it ∧ Visits it l

/-- The last key of a list of entries whose lengths have 32 bits. -/
theorem lastKeyOf_lt (hfits : ∀ e ∈ l, BlockIterator.EntryFits e) :
    (lastKeyOf l).length < 2 ^ 32 := by
  unfold lastKeyOf
  cases hl : l.getLast? with
  | none => decide
  | some e => exact (hfits e (List.mem_of_getLast? hl)).1

/-- All entries but the last are small, so the whole block is of moderate size. -/
theorem image_lt_of_buildable (hfits : ∀ e ∈ l, BlockIterator.EntryFits e) (hl : Buildable cmp l) :
    (blockImage l).length < 2 ^ 40 := by
  rcases List.eq_nil_or_concat l with rfl | ⟨l, e, rfl⟩
  · decide
  · rw [List.concat_eq_append] at hfits hl ⊢
    have hsize := (buildable_append.1 hl).1
    obtain ⟨h1, h2⟩ := hfits e (by simp)
    have := length_encodeEntry_le e
    rw [blockImage_append, blockImage_cons, blockImage_nil, List.append_nil, List.length_append]
    unfold kBlockSize at hsize
    omega

/-- A list that is `Buildable` is built into a table that stores it. -/
theorem build_stores (hos : ∀ i, (os i).failed = false) (name : String) (hne : l ≠ [])
    (hfits : ∀ e ∈ l, BlockIterator.EntryFits e) (hl : Buildable cmp l) :
    ∃ (b : TableBuilder) (t : TableLayout), build cmp os name l = .ok (.OK, b) ∧ t.Stores l ∧
      t.index = indexImage l (flushes l) ∧ b.file.fd = t.content ∧ b.fileSize = t.fileSize ∧
      t.lastKey = lastKeyOf l := by
  obtain ⟨m, hm, hs, hfed⟩ := addAll_stage hos name hfits hl
  obtain ⟨b₁, filter, filterBlock, hfl, hs₁, -, hfin, ht⟩ := flush_layout hs hfed hos hne
    (flushes_le l) (image_lt_of_buildable hfits hl) (lastKeyOf_lt hfits)
  obtain ⟨b, hb, hfd, hsize, -⟩ := finish_stage cmp hos hfl hs₁ hfin ht
  exact ⟨b, layout l (flushes l + 1) filter, by simp only [build, hm, Exec.ok_bind, hb], ht, rfl,
    hfd, hsize, rfl⟩

/-- **The round trip.**  For a list whose keys increase strictly, and with every write accepted,
building, opening and iterating gives the list back if and only if

* all entries but the last take less than `kBlockSize` bytes,
* every key is also greater than its predecessor cut at the first zero byte, unless the
  predecessor is empty, and
* the data block and the index block are shorter than `2 ^ 32` bytes. -/
theorem roundTrips_iff (hos : ∀ i, (os i).failed = false) (name : String) (hne : l ≠ [])
    (hsorted : l.IsChain fun e e' => cmp e'.1 e.1 = .ok 1) :
    RoundTrips cmp os name l ↔
      (blockImage l.dropLast).length < kBlockSize ∧
      (l.IsChain fun e e' => e.1 = [] ∨ cmp e'.1 (.ofCStr e.1) = .ok 1) ∧
      (blockImage l).length < 2 ^ 32 ∧ (indexImage l (flushes l)).length < 2 ^ 32 := by
  constructor
  · rintro ⟨b, hb, t, ht, it, hit, hvisits⟩
    have hfits := hvisits.fits
    obtain ⟨m, hm, -⟩ := Exec.bind_eq_ok.1 hb
    have hl := addAll_buildable hos hfits hm
    obtain ⟨b', t', hb', hst, hindex, hfd, hsize, -⟩ := build_stores hos name hne hfits hl
    cases hb.symm.trans hb'
    have hopen := openTable_spec hst []
    rw [List.append_nil, ← hfd, ← hsize] at hopen
    cases hopen.symm.trans ht
    obtain ⟨it', hit', hin⟩ := seekToFirst_spec hst []
    rw [List.append_nil, ← hfd] at hit'
    cases hit.symm.trans hit'
    -- An iteration over a block of `2 ^ 32` bytes or more would not come to its end.
    have hlt := hvisits.index_lt
    rw [hin.index.data_eq] at hlt
    have himage := hvisits.image_lt hin (BlockIterator.before_make l) (by
      rw [List.nil_append]
      exact hl.size.trans (by decide))
    exact ⟨hl.size, hl.cut, himage, hindex ▸ hlt⟩
  · rintro ⟨hsize, hcut, himage, hidx⟩
    have hfits := BlockIterator.fits_of_image_lt himage
    have hl : Buildable cmp l := ⟨hsize, hcut, hsorted.imp fun _ _ h => .inr h⟩
    obtain ⟨b, t, hb, hst, hindex, hfd, hfs, -⟩ := build_stores hos name hne hfits hl
    have hopen := openTable_spec hst []
    rw [List.append_nil, ← hfd, ← hfs] at hopen
    obtain ⟨it, hit, hin⟩ := seekToFirst_spec hst []
    rw [List.append_nil, ← hfd] at hit
    exact ⟨b, hb, _, hopen, it, hit,
      visits_spec hin (hindex ▸ hidx) (BlockIterator.before_make l) himage hfits⟩

/-- Two small entries make the round trip. -/
theorem roundTrips_iff_two_entries :
    (∀ i, ((fun _ => .accept 100 : ℕ → WriteResult) i).failed = false) ∧
    RoundTrips sliceComparator (fun _ => .accept 100) "sstable_1" [([97], [98]), ([99], [100])] :=
  ⟨fun _ => rfl, (roundTrips_iff (fun _ => rfl) "sstable_1" (by simp)
    (by simp [sliceComparator]; decide)).2 (by
      refine ⟨by decide, ?_, by decide, by decide⟩
      simp [sliceComparator]
      decide)⟩

/-- Two entries of which the first fills a data block: the second `Add` call finds the data block
not empty. -/
theorem roundTrips_fails_second_block :
    ¬ ∀ (cmp : Comparator) (os : ℕ → WriteResult) (name : String) (l : List (Bytes × Bytes)),
      (∀ i, (os i).failed = false) → l ≠ [] → (l.IsChain fun e e' => cmp e'.1 e.1 = .ok 1) →
        RoundTrips cmp os name l := by
  intro h
  obtain ⟨b, hb, -⟩ := h sliceComparator (fun _ => .accept kBlockSize) "sstable_1"
    [([97], List.replicate kBlockSize 0), ([98], [])] (fun _ => rfl) (by simp)
    (by simp [sliceComparator]; decide)
  have hrun : (build sliceComparator (fun _ => .accept kBlockSize) "sstable_1"
      [([97], List.replicate kBlockSize 0), ([98], [])]).map (fun _ => ()) =
      .error (.assertion "r->data_block.Empty()") := by decide +kernel
  rw [hb] at hrun
  cases hrun

end TableBuilder

end KoishiDB
