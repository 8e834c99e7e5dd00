import KoishiDB.Disk.FilterReader
import KoishiDB.Disk.Lookup

/-!
# The layout of a table

Where the blocks of a finished table lie, and which keys its filter block covers.  A table is taken
here as its bytes and its footer: the index block is what the handle of the footer points to, and
`Lists fd index blocks` says that it lists the data blocks `blocks`, each with its key, its handle
and the entries in the bytes the handle points to.  At most one list of data blocks fits a table
(`Lists.unique`).

`Flush` does not reset the data block, so a block that reaches `kBlockSize` in the last `Add` call
is written a second time by `Finish`.  The index lists the second copy: the first is a gap, and the
offset of the second selects a filter behind the only one that has keys.

* `laidOut_iff` : when the blocks of a table lie one behind the other and have each entry once.
* `filterCovers_iff` : when the filter block covers the keys of every data block.
-/

namespace KoishiDB

/-! ### What a table lists -/

/-- The bytes that a handle points to. -/
def BlockHandle.slice (h : BlockHandle) (fd : Bytes) : Bytes := (fd.drop h.offset).take h.size

/-- The bytes are a block with the entries. -/
def IsBlock (bytes : Bytes) (l : List (Bytes × Bytes)) : Prop :=
  bytes = blockImage l ∧ ∀ e ∈ l, BlockIterator.EntryFits e

/-- A data block in the index of a table. -/
structure DataBlock where
  /-- The key of the block in the index. -/
  key : Bytes
  handle : BlockHandle
  entries : List (Bytes × Bytes)

/-- The index block of a table lists the data blocks. -/
structure Lists (fd : Bytes) (index : BlockHandle) (blocks : List DataBlock) : Prop where
  index : IsBlock (index.slice fd) (blocks.map fun d => (d.key, d.handle.bytes))
  isSet : ∀ d ∈ blocks, d.handle.IsSet
  data : ∀ d ∈ blocks, IsBlock (d.handle.slice fd) d.entries
  size : ∀ d ∈ blocks, (blockImage d.entries).length = d.handle.size

/-- The handles point to one piece of the file after the other, from `a` up to `z`. -/
def Contiguous (a : ℕ) : List BlockHandle → ℕ → Prop
  | [], z => a = z
  | h :: hs, z => h.offset = a ∧ Contiguous (a + h.size) hs z

theorem prefixed_inj {s s' rest rest' : Bytes} (hs : s.length < 2 ^ 32) (hs' : s'.length < 2 ^ 32)
    (h : encodeVarint32 s.length ++ s ++ rest = encodeVarint32 s'.length ++ s' ++ rest') :
    s = s' ∧ rest = rest' := by
  have hget := getLengthPrefixedSlice_put hs rest
  rw [h, getLengthPrefixedSlice_put hs' rest'] at hget
  cases hget
  exact ⟨rfl, rfl⟩

theorem encodeEntry_inj {e e' : Bytes × Bytes} {rest rest' : Bytes}
    (he : BlockIterator.EntryFits e) (he' : BlockIterator.EntryFits e')
    (h : encodeEntry e ++ rest = encodeEntry e' ++ rest') : e = e' ∧ rest = rest' := by
  simp only [encodeEntry, List.append_assoc] at h
  rw [← List.append_assoc, ← List.append_assoc (encodeVarint32 e'.1.length)] at h
  obtain ⟨hkey, h⟩ := prefixed_inj he.1 he'.1 h
  rw [← List.append_assoc, ← List.append_assoc (encodeVarint32 e'.2.length)] at h
  obtain ⟨hvalue, hrest⟩ := prefixed_inj he.2 he'.2 h
  exact ⟨Prod.ext hkey hvalue, hrest⟩

/-- A block has its entries only. -/
theorem IsBlock.unique {bytes : Bytes} {l l' : List (Bytes × Bytes)} (h : IsBlock bytes l)
    (h' : IsBlock bytes l') : l = l' := by
  induction l generalizing l' bytes with
  | nil =>
    cases l' with
    | nil => rfl
    | cons e' l' => exact absurd (h'.1.symm.trans h.1) (TableBuilder.blockImage_ne_nil (by simp))
  | cons e l ih =>
    cases l' with
    | nil => exact absurd (h.1.symm.trans h'.1) (TableBuilder.blockImage_ne_nil (by simp))
    | cons e' l' =>
      have heq := h.1.symm.trans h'.1
      rw [blockImage_cons, blockImage_cons] at heq
      obtain ⟨rfl, hrest⟩ := encodeEntry_inj (h.2 e (by simp)) (h'.2 e' (by simp)) heq
      rw [ih ⟨rfl, fun y hy => h.2 y (List.mem_cons_of_mem e hy)⟩
        ⟨hrest, fun y hy => h'.2 y (List.mem_cons_of_mem e hy)⟩]

theorem bytes_inj {h h' : BlockHandle} (hs : h.IsSet) (hs' : h'.IsSet) (heq : h.bytes = h'.bytes) :
    h = h' := by
  have hd := BlockHandle.decodeFrom_bytes hs []
  rw [heq, BlockHandle.decodeFrom_bytes hs' []] at hd
  cases hd
  rfl

/-- A table lists its data blocks only. -/
theorem Lists.unique {fd : Bytes} {index : BlockHandle} {blocks blocks' : List DataBlock}
    (h : Lists fd index blocks) (h' : Lists fd index blocks') : blocks = blocks' := by
  have hindex := h.index.unique h'.index
  obtain ⟨-, hset, hdata, -⟩ := h
  obtain ⟨-, hset', hdata', -⟩ := h'
  induction blocks generalizing blocks' with
  | nil => exact (List.map_eq_nil_iff.1 hindex.symm).symm
  | cons d blocks ih =>
    cases blocks' with
    | nil => cases hindex
    | cons d' blocks' =>
      rw [List.map_cons, List.map_cons, List.cons.injEq] at hindex
      obtain ⟨hkey, hbytes⟩ := Prod.mk.inj hindex.1
      have hhandle := bytes_inj (hset d (by simp)) (hset' d' (by simp)) hbytes
      have hentries := (hdata d (by simp)).unique (hhandle ▸ hdata' d' (by simp))
      obtain rfl : d = d' := by
        cases d
        cases d'
        simp_all
      rw [ih hindex.2 (fun y hy => hset y (List.mem_cons_of_mem d hy))
        (fun y hy => hdata y (List.mem_cons_of_mem d hy))
        (fun y hy => hset' y (List.mem_cons_of_mem d hy))
        (fun y hy => hdata' y (List.mem_cons_of_mem d hy))]

/-! ### Tables that were built -/

namespace TableBuilder

variable {cmp : Comparator} {os : ℕ → WriteResult} {name : String} {l : List (Bytes × Bytes)}
  {b b' : TableBuilder}

/-- The footer of the table that `Add` calls and `Finish` build. -/
def buildFooter (cmp : Comparator) (os : ℕ → WriteResult) (name : String)
    (l : List (Bytes × Bytes)) : Exec Footer := do
  let b ← (make (.make os name)).addAll cmp l
  b.finishFooter cmp

/-- A `Finish` that returns OK has come to its footer. -/
theorem exists_finishFooter (h : b.finish cmp = .ok (.OK, b')) :
    ∃ footer, b.finishFooter cmp = .ok footer := by
  obtain ⟨m, hm, hst, -⟩ := finish_cases h
  obtain ⟨b₁, hb₁, hm⟩ := Exec.bind_eq_ok.1 hm
  dsimp only at hm
  split at hm
  · rename_i hno
    cases hm
    exact absurd hst (not_ok_iff.1 hno)
  obtain ⟨⟨b₂, filter⟩, hb₂, hm⟩ := Exec.bind_eq_ok.1 hm
  dsimp only at hm
  split at hm
  · rename_i hno
    cases hm
    exact absurd hst (not_ok_iff.1 hno)
  obtain ⟨⟨b₃, index⟩, hb₃, -⟩ := Exec.bind_eq_ok.1 hm
  exact ⟨⟨index, filter⟩, by simp only [finishFooter, hb₁, Exec.ok_bind, hb₂, hb₃, Exec.pure_eq]⟩

theorem exists_buildFooter (h : build cmp os name l = .ok (.OK, b)) :
    ∃ footer, buildFooter cmp os name l = .ok footer := by
  obtain ⟨m, hm, hfin⟩ := Exec.bind_eq_ok.1 h
  obtain ⟨footer, hfooter⟩ := exists_finishFooter hfin
  exact ⟨footer, by simp only [buildFooter, hm, Exec.ok_bind, hfooter]⟩

/-- The table of no entries: a filter block without filters, and an empty index block. -/
theorem buildFooter_nil (hos : ∀ i, (os i).failed = false) :
    buildFooter cmp os name [] = .ok ⟨⟨5, 0⟩, ⟨0, 5⟩⟩ := by
  have hw : Written os { make (.make os name) with closed := true } [] 0 := ⟨rfl, rfl, rfl, rfl⟩
  have hfilter : FilterBlockBuilder.make.finish =
      .ok ([0, 0, 0, 0, 11], ⟨[], [], [], [0, 0, 0, 0, 11]⟩) := by decide +kernel
  obtain ⟨b₂, hb₂, hw₂, hpend, hindex, -, -⟩ := writeFilterBlock_written hw hos hfilter (by decide)
  have hlast : b₂.addLastPending cmp = .ok b₂ := by
    rw [addLastPending, hpend]
    rfl
  have hlt : 0 + [0, 0, 0, 0, 11].length + ([] : Bytes).length < 2 ^ 64 := by decide
  obtain ⟨f, hf, -⟩ := writeBlock_written hw₂ hos hlt .make
  have hflush : (make (.make os name)).flush = .ok (make (.make os name)) := rfl
  have hfinish : b₂.indexBlock.finish = [] := by rw [hindex]; rfl
  have hadd : (make (.make os name)).addAll cmp [] = .ok (make (.make os name)) := rfl
  simp only [buildFooter, hadd, finishFooter, hflush, Exec.ok_bind, hb₂, writeIndexBlock, hlast,
    hfinish, hf, Exec.pure_eq]
  rfl

/-- The table of a list that is not empty, with the filter `F` of all its keys. -/
def builtLayout (l : List (Bytes × Bytes)) (F : Bytes) : TableLayout :=
  layout l (flushes l + 1) (FilterBlockReader.oneFilter F
    ((flushes l + 1) * (blockImage l).length / kFilterBase - 1))

theorem length_lt_of_buildable (h : Buildable cmp l) : l.length * 10 < 2 ^ 31 := by
  have hcount := two_mul_length_le l.dropLast
  have hsize := h.size
  rw [List.length_dropLast] at hcount
  unfold kBlockSize at hsize
  omega

theorem length_keys_le (l : List (Bytes × Bytes)) :
    (l.map Prod.fst).flatten.length ≤ (blockImage l).length := by
  induction l with
  | nil => simp
  | cons e l ih =>
    rw [List.map_cons, List.flatten_cons, List.length_append, blockImage_cons, List.length_append,
      length_encodeEntry]
    omega

/-- **The table that is built** from a list that is not empty. -/
theorem build_layout (hos : ∀ i, (os i).failed = false) (hne : l ≠ [])
    (hfits : ∀ e ∈ l, BlockIterator.EntryFits e) (hb : build cmp os name l = .ok (.OK, b)) :
    ∃ F : Bytes, F.length < 2 ^ 32 ∧
      ((blockImage l).length < 2 ^ 32 → ∀ e ∈ l, keyMayMatch e.1 F = true) ∧
      (builtLayout l F).Stores l ∧ buildFooter cmp os name l = .ok (builtLayout l F).footer ∧
      b.file.fd = (builtLayout l F).content := by
  obtain ⟨m, hm, hfinish⟩ := Exec.bind_eq_ok.1 hb
  have hl := addAll_buildable hos hfits hm
  obtain ⟨m', hm', hs, hfed⟩ := addAll_stage hos name hfits hl
  cases hm.symm.trans hm'
  obtain ⟨b₁, filter, filterBlock, hfl, hs₁, hfed₁, hfin, ht⟩ := flush_layout hs hfed hos hne
    (flushes_le l) (image_lt_of_buildable hfits hl) (lastKeyOf_lt hfits)
  obtain ⟨b'', hb'', hfd, -, hfooter⟩ := finish_stage cmp hos hfl hs₁ hfin ht
  obtain rfl := (Prod.mk.inj (Except.ok.inj (hfinish.symm.trans hb''))).2
  -- all keys are in the first filter
  have hfew : (l.map Prod.fst).length * 10 < 2 ^ 31 := by
    rw [List.length_map]
    exact length_lt_of_buildable hl
  obtain ⟨F, hF, hmatch, f', hfin'⟩ := FilterBlockBuilder.finish_startBlock
    (by simpa using hne) hfew hfed₁
  rw [hs₁.offset] at hfin'
  obtain rfl := (Prod.mk.inj (Except.ok.inj (hfin.symm.trans hfin'))).1
  refine ⟨F, hF, ?_, ht, ?_, hfd⟩
  · intro hlt e he
    exact hmatch ((length_keys_le l).trans_lt hlt) e.1 (List.mem_map_of_mem he)
  · simp only [buildFooter, hm, Exec.ok_bind, hfooter]
    rfl

theorem slice_between {a s c : Bytes} {h : BlockHandle} (ho : h.offset = a.length)
    (hs : h.size = s.length) : h.slice (a ++ (s ++ c)) = s := by
  rw [BlockHandle.slice, ho, hs, List.drop_left' rfl, List.take_left' rfl]

/-- The filter block of a table. -/
theorem slice_filter (t : TableLayout) : t.footer.filter.slice t.content = t.filter :=
  slice_between rfl rfl

/-- The data blocks that a table lists. -/
theorem lists_of_stores {t : TableLayout} (h : t.Stores l)
    (hfits : ∀ e ∈ l, BlockIterator.EntryFits e) :
    Lists t.content t.footer.index [⟨t.lastKey, t.handle, l⟩] := by
  have hle := h.offset_add_size_le
  have hindex : t.footer.index.slice t.content = t.index := by
    have := slice_between (a := t.front ++ t.filter) (s := t.index) (c := t.footer.handles)
      (h := t.footer.index) (by rw [List.length_append]; rfl) rfl
    simpa only [TableLayout.content, List.append_assoc] using this
  have hdata : t.handle.slice t.content = blockImage l := by
    rw [BlockHandle.slice, TableLayout.content, List.drop_append_of_le_length (by omega),
      List.take_append_of_le_length (by rw [List.length_drop]; omega), h.block]
  constructor
  · exact ⟨hindex, by simpa using h.indexEntry_fits⟩
  · simpa using h.handle_isSet
  · simpa using ⟨hdata, hfits⟩
  · simpa using h.size_eq.symm

theorem ne_nil_of_full (h : kBlockSize ≤ (blockImage l).length) : l ≠ [] := by
  rintro rfl
  exact absurd h (by decide)

/-- A data block that has been written twice is listed behind its first copy. -/
theorem lists_of_full (hos : ∀ i, (os i).failed = false)
    (hfits : ∀ e ∈ l, BlockIterator.EntryFits e) (hb : build cmp os name l = .ok (.OK, b))
    (hfull : kBlockSize ≤ (blockImage l).length) {footer : Footer}
    (hfooter : buildFooter cmp os name l = .ok footer) {blocks : List DataBlock}
    (h : Lists b.file.fd footer.index blocks) :
    ∃ F : Bytes, F.length < 2 ^ 32 ∧
      blocks = [⟨lastKeyOf l, ⟨(blockImage l).length, (blockImage l).length⟩, l⟩] ∧
      footer.filter.slice b.file.fd =
        FilterBlockReader.oneFilter F (2 * (blockImage l).length / kFilterBase - 1) := by
  obtain ⟨F, hF, -, hst, hfooter', hfd⟩ := build_layout hos (ne_nil_of_full hfull) hfits hb
  obtain rfl := Except.ok.inj (hfooter.symm.trans hfooter')
  have hflushes : flushes l = 1 := if_pos hfull
  rw [hfd] at h ⊢
  refine ⟨F, hF, ?_, ?_⟩
  · rw [h.unique (lists_of_stores hst hfits)]
    simp [builtLayout, layout, hflushes]
  · rw [slice_filter]
    simp [builtLayout, layout, hflushes]

/-- A data block that is written once. -/
theorem lists_of_small (hos : ∀ i, (os i).failed = false) (hne : l ≠ [])
    (hb : build cmp os name l = .ok (.OK, b)) (hsmall : (blockImage l).length < kBlockSize)
    {footer : Footer} (hfooter : buildFooter cmp os name l = .ok footer) :
    ∃ F : Bytes, F.length < 2 ^ 32 ∧ (∀ e ∈ l, keyMayMatch e.1 F = true) ∧
      Lists b.file.fd footer.index [⟨lastKeyOf l, ⟨0, (blockImage l).length⟩, l⟩] ∧
      footer.filter.slice b.file.fd = FilterBlockReader.oneFilter F 0 ∧
      footer.filter.offset = (blockImage l).length ∧
      footer.filter.offset + footer.filter.size = footer.index.offset := by
  have hlt : (blockImage l).length < 2 ^ 32 := hsmall.trans (by decide)
  have hfits := BlockIterator.fits_of_image_lt hlt
  obtain ⟨F, hF, hmatch, hst, hfooter', hfd⟩ := build_layout hos hne hfits hb
  obtain rfl := Except.ok.inj (hfooter.symm.trans hfooter')
  have hflushes : flushes l = 0 := flushes_eq_zero.2 hsmall
  -- The data block ends in one of the first two ranges, so no empty filter follows.
  have hone : (flushes l + 1) * (blockImage l).length / kFilterBase - 1 = 0 := by
    have hbase : kFilterBase = 2048 := rfl
    unfold kBlockSize at hsmall
    rw [hflushes, hbase]
    omega
  have hlists := lists_of_stores hst hfits
  refine ⟨F, hF, hmatch hlt, ?_, ?_, ?_, rfl⟩
  · rw [hfd]
    simpa [builtLayout, layout, hflushes] using hlists
  · rw [hfd, slice_filter, ← hone]
    rfl
  · change (builtLayout l F).front.length = _
    simp [builtLayout, layout, hflushes]

/-! ### The layout -/

section Order

variable {α : Type} [LinearOrder α] {D : Bytes → Prop} {rank : Bytes → α}

/-- The data blocks that the index lists lie one behind the other from the start of the file up to
the filter block, the index block follows the filter block, the data blocks have each entry once,
and each index key is the largest key of its block. -/
structure LaidOut (rank : Bytes → α) (l : List (Bytes × Bytes)) (fd : Bytes) (footer : Footer)
    (blocks : List DataBlock) : Prop where
  lists : Lists fd footer.index blocks
  contiguous : Contiguous 0 (blocks.map DataBlock.handle) footer.filter.offset
  filter_end : footer.filter.offset + footer.filter.size = footer.index.offset
  entries : blocks.flatMap DataBlock.entries = l
  largest : ∀ d ∈ blocks, (∃ e ∈ d.entries, e.1 = d.key) ∧ ∀ e ∈ d.entries, rank e.1 ≤ rank d.key

theorem LaidOut.fits {fd : Bytes} {footer : Footer} {blocks : List DataBlock}
    (h : LaidOut rank l fd footer blocks) : ∀ e ∈ l, BlockIterator.EntryFits e := by
  intro e he
  rw [← h.entries] at he
  obtain ⟨d, hd, he⟩ := List.mem_flatMap.1 he
  exact (h.lists.data d hd).2 e he

/-- The last key is the largest. -/
theorem le_lastKeyOf (hcmp : Orders cmp D rank) (hleast : D [] → ∀ key, D key → rank [] ≤ rank key)
    (hD : ∀ e ∈ l, D e.1) (hl : Buildable cmp l) (hne : l ≠ []) :
    (∃ e ∈ l, e.1 = lastKeyOf l) ∧ ∀ e ∈ l, rank e.1 ≤ rank (lastKeyOf l) := by
  have hchain : l.Pairwise fun e e' => rank e.1 ≤ rank e'.1 := by
    have : IsTrans (Bytes × Bytes) fun e e' => rank e.1 ≤ rank e'.1 := ⟨fun _ _ _ => le_trans⟩
    refine (hl.order.imp_of_mem_imp ?_).pairwise
    intro e e' he he' h
    rcases h with h0 | h1
    · rw [h0]
      exact hleast (h0 ▸ hD e he) e'.1 (hD e' he')
    · rw [hcmp _ _ (hD e' he') (hD e he), Except.ok.injEq, threeWay_eq_one] at h1
      exact h1.le
  obtain ⟨l, x, rfl⟩ := List.eq_nil_or_concat l |>.resolve_left hne
  rw [List.concat_eq_append] at hchain ⊢
  rw [lastKeyOf_append]
  refine ⟨⟨x, by simp, rfl⟩, ?_⟩
  intro e he
  rcases List.mem_append.1 he with he | he
  · exact (List.pairwise_append.1 hchain).2.2 e he x (by simp)
  · rw [List.mem_singleton.1 he]

/-- The second copy of a data block does not start at the start of the file. -/
theorem not_laidOut_of_full (hos : ∀ i, (os i).failed = false)
    (hb : build cmp os name l = .ok (.OK, b)) (hfull : kBlockSize ≤ (blockImage l).length)
    {footer : Footer} (hfooter : buildFooter cmp os name l = .ok footer)
    {blocks : List DataBlock} : ¬ LaidOut rank l b.file.fd footer blocks := by
  intro h
  obtain ⟨F, -, rfl, -⟩ := lists_of_full hos h.fits hb hfull hfooter h.lists
  have hzero : (blockImage l).length = 0 := h.contiguous.1
  rw [hzero] at hfull
  exact absurd hfull (by decide)

/-- **When the layout of a table is right.**  For every comparator that orders the keys, with the
empty key in front, and every list whose `Add` calls and `Finish` go through without a failing
write: the blocks of the table lie as they should if and only if the entries take less than
`kBlockSize` bytes. -/
theorem laidOut_iff (hcmp : Orders cmp D rank) (hleast : D [] → ∀ key, D key → rank [] ≤ rank key)
    (hos : ∀ i, (os i).failed = false) (hD : ∀ e ∈ l, D e.1)
    (hb : build cmp os name l = .ok (.OK, b)) :
    ∃ footer, buildFooter cmp os name l = .ok footer ∧
      ((∃ blocks, LaidOut rank l b.file.fd footer blocks) ↔
        (blockImage l).length < kBlockSize) := by
  obtain ⟨footer, hfooter⟩ := exists_buildFooter hb
  refine ⟨footer, hfooter, ?_, ?_⟩
  · rintro ⟨blocks, h⟩
    by_contra hfull
    exact not_laidOut_of_full hos hb (not_lt.1 hfull) hfooter h
  · intro hsmall
    by_cases hne : l = []
    · subst hne
      obtain rfl := Except.ok.inj (hfooter.symm.trans (buildFooter_nil hos))
      refine ⟨[], ⟨⟨?_, by simp⟩, by simp, by simp, by simp⟩, rfl, rfl, rfl, by simp⟩
      simp [BlockHandle.slice]
    · obtain ⟨F, -, -, hlists, -, hoff, hend⟩ := lists_of_small hos hne hb hsmall hfooter
      obtain ⟨m, hm, -⟩ := Exec.bind_eq_ok.1 hb
      have hfits := BlockIterator.fits_of_image_lt (hsmall.trans (by decide))
      have hl := addAll_buildable hos hfits hm
      refine ⟨_, hlists, ⟨rfl, ?_⟩, hend, by simp, ?_⟩
      · rw [hoff, Nat.zero_add]
        rfl
      · simpa using le_lastKeyOf hcmp hleast hD hl hne

end Order

/-- Two small entries. -/
theorem laidOut_iff_two_entries :
    ∃ b footer, build sliceComparator (fun _ => .accept 100) "sstable_1"
        [([97], [98]), ([99], [100])] = .ok (.OK, b) ∧
      buildFooter sliceComparator (fun _ => .accept 100) "sstable_1"
        [([97], [98]), ([99], [100])] = .ok footer ∧
      ∃ blocks, LaidOut (id : Bytes → Bytes) [([97], [98]), ([99], [100])] b.file.fd footer
        blocks := by
  have hrun : (build sliceComparator (fun _ => .accept 100) "sstable_1"
      [([97], [98]), ([99], [100])]).map Prod.fst = .ok .OK := by decide +kernel
  obtain ⟨⟨st, b⟩, hb, rfl⟩ := Exec.exists_of_map hrun
  obtain ⟨footer, hfooter, hiff⟩ := laidOut_iff sliceComparator_orders
    (fun _ key _ => not_lt.1 (List.not_lt_nil key)) (fun _ => rfl) (fun _ _ => trivial) hb
  exact ⟨b, footer, hb, hfooter, hiff.2 (by decide)⟩

/-- An entry that fills a data block alone. -/
def fullEntry : Bytes × Bytes := ([97], List.replicate kBlockSize 0)

theorem fullEntry_full : kBlockSize ≤ (blockImage [fullEntry]).length := by
  rw [blockImage_cons, List.length_append, length_encodeEntry]
  simp only [fullEntry, List.length_replicate]
  omega

/-- The table of that entry. -/
theorem exists_build_fullEntry : ∃ b, build sliceComparator (fun _ => .accept kBlockSize)
    "sstable_1" [fullEntry] = .ok (.OK, b) := by
  have hfits : ∀ e ∈ [fullEntry], BlockIterator.EntryFits e := by
    intro e he
    obtain rfl := List.mem_singleton.1 he
    exact ⟨by decide, by rw [fullEntry, List.length_replicate]; decide⟩
  have hl : Buildable sliceComparator [fullEntry] := ⟨by decide, by simp, by simp⟩
  have hos : ∀ i, ((fun _ => .accept kBlockSize : ℕ → WriteResult) i).failed = false :=
    fun _ => rfl
  obtain ⟨b, -, hb, -⟩ := build_stores hos "sstable_1" (by simp) hfits hl
  exact ⟨b, hb⟩

/-- The data block of one large entry is written twice. -/
theorem laidOut_fails_full_block :
    ¬ ∀ (os : ℕ → WriteResult) (name : String) (l : List (Bytes × Bytes)) (b : TableBuilder)
      (footer : Footer), (∀ i, (os i).failed = false) → (l.Pairwise fun e e' => e.1 < e'.1) →
        build sliceComparator os name l = .ok (.OK, b) →
        buildFooter sliceComparator os name l = .ok footer →
          ∃ blocks, LaidOut (id : Bytes → Bytes) l b.file.fd footer blocks := by
  intro h
  obtain ⟨b, hb⟩ := exists_build_fullEntry
  obtain ⟨footer, hfooter⟩ := exists_buildFooter hb
  obtain ⟨blocks, hlaid⟩ := h _ _ _ b footer (fun _ => rfl) (by simp) hb hfooter
  exact not_laidOut_of_full (fun _ => rfl) hb fullEntry_full hfooter hlaid

/-! ### The filter block -/

/-- Every entry is in a data block that the index lists, and for every listed data block and every
key in it the filter block answers that the key may be there. -/
def FilterCovers (l : List (Bytes × Bytes)) (fd : Bytes) (footer : Footer) : Prop :=
  ∃ blocks, Lists fd footer.index blocks ∧ (∀ e ∈ l, ∃ d ∈ blocks, e ∈ d.entries) ∧
    ∀ d ∈ blocks, ∀ e ∈ d.entries,
      (FilterBlockReader.make (footer.filter.slice fd)).keyMayMatch d.handle.offset e.1 = .ok true

/-- The offset of the second copy of a data block selects an empty filter. -/
theorem not_filterCovers_of_full (hos : ∀ i, (os i).failed = false)
    (hb : build cmp os name l = .ok (.OK, b)) (hfull : kBlockSize ≤ (blockImage l).length)
    {footer : Footer} (hfooter : buildFooter cmp os name l = .ok footer) :
    ¬ FilterCovers l b.file.fd footer := by
  rintro ⟨blocks, hlists, hentries, hcovers⟩
  have hfits : ∀ e ∈ l, BlockIterator.EntryFits e := by
    intro e he
    obtain ⟨d, hd, hed⟩ := hentries e he
    exact (hlists.data d hd).2 e hed
  obtain ⟨F, hF, rfl, hfilter⟩ := lists_of_full hos hfits hb hfull hfooter hlists
  obtain ⟨e, he⟩ := List.exists_mem_of_ne_nil l (ne_nil_of_full hfull)
  have hbase : kFilterBase = 2048 := rfl
  have hsize : kBlockSize = 4096 := rfl
  have hle : kFilterBase ≤ (blockImage l).length := by omega
  have hdiv : (blockImage l).length / kFilterBase ≤
      2 * (blockImage l).length / kFilterBase - 1 := by
    rw [hbase]
    omega
  have hempty := FilterBlockReader.keyMayMatch_empty hF hle hdiv e.1
  have hanswer := hcovers _ (List.mem_singleton_self _) e he
  rw [hfilter] at hanswer
  exact absurd (Except.ok.inj (hempty.symm.trans hanswer)) (by decide)

/-- **When the filter block covers every key.**  For every list whose `Add` calls and `Finish` go
through without a failing write: the filter block answers `true` for the keys of every data block
that the index lists if and only if the entries take less than `kBlockSize` bytes. -/
theorem filterCovers_iff (hos : ∀ i, (os i).failed = false)
    (hb : build cmp os name l = .ok (.OK, b)) :
    ∃ footer, buildFooter cmp os name l = .ok footer ∧
      (FilterCovers l b.file.fd footer ↔ (blockImage l).length < kBlockSize) := by
  obtain ⟨footer, hfooter⟩ := exists_buildFooter hb
  refine ⟨footer, hfooter, ?_, ?_⟩
  · intro h
    by_contra hfull
    exact not_filterCovers_of_full hos hb (not_lt.1 hfull) hfooter h
  · intro hsmall
    by_cases hne : l = []
    · subst hne
      obtain rfl := Except.ok.inj (hfooter.symm.trans (buildFooter_nil hos))
      refine ⟨[], ⟨⟨?_, by simp⟩, by simp, by simp, by simp⟩, by simp, by simp⟩
      simp [BlockHandle.slice]
    · obtain ⟨F, hF, hmatch, hlists, hfilter, -, -⟩ := lists_of_small hos hne hb hsmall hfooter
      refine ⟨_, hlists, fun e he => ⟨_, List.mem_singleton_self _, he⟩, ?_⟩
      intro d hd e he
      obtain rfl := List.mem_singleton.1 hd
      have hbase : 0 < kFilterBase := by decide
      rw [hfilter, FilterBlockReader.keyMayMatch_first hF hbase, hmatch e he]

/-- Two small entries. -/
theorem filterCovers_iff_two_entries :
    ∃ b footer, build sliceComparator (fun _ => .accept 100) "sstable_1"
        [([97], [98]), ([99], [100])] = .ok (.OK, b) ∧
      buildFooter sliceComparator (fun _ => .accept 100) "sstable_1"
        [([97], [98]), ([99], [100])] = .ok footer ∧
      FilterCovers [([97], [98]), ([99], [100])] b.file.fd footer := by
  have hrun : (build sliceComparator (fun _ => .accept 100) "sstable_1"
      [([97], [98]), ([99], [100])]).map Prod.fst = .ok .OK := by decide +kernel
  obtain ⟨⟨st, b⟩, hb, rfl⟩ := Exec.exists_of_map hrun
  obtain ⟨footer, hfooter, hiff⟩ := filterCovers_iff (fun _ => rfl) hb
  exact ⟨b, footer, hb, hfooter, hiff.2 (by decide)⟩

/-- The key of one large entry is turned away. -/
theorem filterCovers_fails_full_block :
    ¬ ∀ (os : ℕ → WriteResult) (name : String) (l : List (Bytes × Bytes)) (b : TableBuilder)
      (footer : Footer), (∀ i, (os i).failed = false) → (l.Pairwise fun e e' => e.1 < e'.1) →
        build sliceComparator os name l = .ok (.OK, b) →
        buildFooter sliceComparator os name l = .ok footer →
          FilterCovers l b.file.fd footer := by
  intro h
  obtain ⟨b, hb⟩ := exists_build_fullEntry
  obtain ⟨footer, hfooter⟩ := exists_buildFooter hb
  exact not_filterCovers_of_full (fun _ => rfl) hb fullEntry_full hfooter
    (h _ _ _ b footer (fun _ => rfl) (by simp) hb hfooter)

end TableBuilder

end KoishiDB
