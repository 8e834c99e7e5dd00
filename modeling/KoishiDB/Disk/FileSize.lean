import KoishiDB.Disk.RoundTrip

/-!
# The size of a table file

`TableBuilder` counts in `offset` what it appends to its file, and `FileSize` returns that count.
`Finish` passes the encoded footer on through `std::string::data()`, that is, as a zero-terminated
string, and then counts its whole size.  A footer always has a zero byte, because the size of the
filter block has fewer than 64 bits, so a table file is always shorter than its `FileSize`.

* `addAll_counting` : up to `Finish`, the offset counts the bytes appended.
* `build_missing` : a finished table lacks some of the bytes that are counted for the footer.
* `fileSize_never_true` : `FileSize` is never the number of bytes appended.
-/

namespace KoishiDB

/-- What a zero-terminated string has in front of a zero byte. -/
theorem length_cString_append_zero_le (s t : Bytes) :
    (cString (s ++ 0 :: t)).length ≤ s.length := by
  induction s with
  | nil => simp [cString]
  | cons x s ih =>
    unfold cString at ih ⊢
    rw [List.cons_append, List.takeWhile_cons]
    split
    · simpa using ih
    · simp

theorem length_encodeVarint64_le_nine {v : ℕ} (h : v < 2 ^ 63) : (encodeVarint64 v).length ≤ 9 := by
  have hmono : (Leb128.encode 10 v).length ≤ (Leb128.encode 10 (2 ^ 63 - 1)).length :=
    Leb128.length_encode_mono (by omega)
  rw [encodeVarint64, u64_of_lt (by omega)]
  exact hmono.trans (by decide)

/-- A footer has a zero byte, unless its filter block has `2 ^ 63` bytes. -/
theorem Footer.length_cString_encodeTo_lt {f : Footer} {bytes : Bytes} (hf : f.filter.size < 2 ^ 63)
    (h : f.encodeTo = .ok bytes) :
    bytes.length = kFixedFooterSize ∧ (cString bytes).length < kFixedFooterSize := by
  have hhandle : ∀ {g : BlockHandle} {b : Bytes}, g.encodeTo = .ok b → b = g.bytes := by
    intro g b hg
    obtain ⟨_, -, hg⟩ := Exec.bind_eq_ok.1 hg
    obtain ⟨_, -, hg⟩ := Exec.bind_eq_ok.1 hg
    exact (Except.ok.inj hg).symm
  obtain ⟨index, hindex, h⟩ := Exec.bind_eq_ok.1 h
  obtain ⟨filter, hfilter, h⟩ := Exec.bind_eq_ok.1 h
  obtain rfl := hhandle hindex
  obtain rfl := hhandle hfilter
  cases h
  have h1 := f.index.length_bytes_le
  have h2 : f.filter.bytes.length ≤ 19 := by
    have := length_encodeVarint64_le f.filter.offset
    have := length_encodeVarint64_le_nine hf
    rw [BlockHandle.bytes, List.length_append]
    omega
  have hlt : (f.index.bytes ++ f.filter.bytes).length < kFixedFooterSize := by
    rw [List.length_append, kFixedFooterSize]
    omega
  obtain ⟨n, hn⟩ := Nat.exists_eq_succ_of_ne_zero (Nat.sub_ne_zero_of_lt hlt)
  rw [hn, List.replicate_succ]
  have hcut := length_cString_append_zero_le (f.index.bytes ++ f.filter.bytes) (List.replicate n 0)
  refine ⟨?_, hcut.trans_lt hlt⟩
  rw [List.length_append, List.length_cons, List.length_replicate]
  omega

namespace TableBuilder

variable {os : ℕ → WriteResult} {cmp : Comparator} {l : List (Bytes × Bytes)}
  {b m b' : TableBuilder}

/-- The number of bytes appended to the file so far, those in its buffer included. -/
def appended (b : TableBuilder) : ℕ := (b.file.fd ++ b.file.buf).length

/-- The offset counts the bytes appended, in 64 bits. -/
structure Counted (os : ℕ → WriteResult) (b : TableBuilder) : Prop where
  os_eq : b.file.os = os
  offset_eq : b.offset = u64 b.appended

theorem counted_make (os : ℕ → WriteResult) (name : String) : Counted os (make (.make os name)) :=
  ⟨rfl, rfl⟩

/-- `WriteBlock` counts what it appends. -/
theorem Counted.writeBlock (hc : Counted os b) (hos : ∀ i, (os i).failed = false) (content : Bytes)
    (handle : BlockHandle) :
    ∃ f, b.writeBlock content handle =
        ({ b with status := .OK, file := f, offset := u64 (b.offset + content.length) },
          ⟨b.offset, content.length⟩) ∧
      Counted os
        { b with status := .OK, file := f, offset := u64 (b.offset + content.length) } := by
  obtain ⟨f, hw, hos', hcontent⟩ := writeBlock_of_accepting (b := b)
    (by rw [hc.os_eq]; exact hos) content handle
  refine ⟨f, hw, hos'.trans hc.os_eq, ?_⟩
  change u64 (b.offset + content.length) = u64 (f.fd ++ f.buf).length
  rw [hcontent, List.length_append, hc.offset_eq]
  simp only [u64, appended]
  omega

/-- `Flush` of a data block that is not empty, with every write accepted. -/
theorem Counted.flush (hc : Counted os b) (hos : ∀ i, (os i).failed = false)
    (hne : b.dataBlock.rep ≠ []) (h : b.flush = .ok b') :
    Counted os b' ∧ b'.status = .OK ∧ b'.pendingIndexBlock = true ∧
      b.filterBlock.startBlock b'.offset = .ok b'.filterBlock := by
  obtain ⟨hempty, -⟩ | ⟨-, w, handle, hw, hb'⟩ := flush_cases h
  · exact absurd hempty hne
  obtain ⟨f₁, hw₁, hc₁⟩ := hc.writeBlock hos b.dataBlock.finish b.blockHandle
  cases hw.symm.trans hw₁
  obtain ⟨hst, -⟩ | ⟨-, filterBlock, hstart, rfl⟩ := hb'
  · exact absurd rfl hst
  obtain ⟨f₂, hfl, hos₂, hfd₂, hbuf₂⟩ := WritableFile.flush_of_accepting (f := f₁)
    (by rw [hc₁.os_eq]; exact hos)
  dsimp only
  rw [hfl]
  refine ⟨⟨hos₂.trans hc₁.os_eq, ?_⟩, rfl, rfl, hstart⟩
  have hoffset := hc₁.offset_eq
  simp only [appended] at hoffset ⊢
  rw [hbuf₂, List.append_nil, hfd₂]
  exact hoffset

/-- What holds between `Add` calls: the offset counts, and no filter is there before the first
flush. -/
structure Counting (os : ℕ → WriteResult) (b : TableBuilder) : Prop extends Counted os b where
  adding : Adding os b
  fresh : b.pendingIndexBlock = false → b.filterBlock.result = []
  filters : b.filterBlock.result.length ≤ 2 ^ 29

theorem counting_make (os : ℕ → WriteResult) (name : String) :
    Counting os (make (.make os name)) :=
  ⟨counted_make os name, adding_make os name, fun _ => rfl, Nat.zero_le _⟩

theorem add_counting (hb : Counting os b) (hos : ∀ i, (os i).failed = false) {key value : Bytes}
    (h : b.add cmp key value = .ok b') : Counting os b' := by
  have hadding := add_adding hb.adding h
  obtain ⟨-, hpend, -, -, hcase⟩ := add_cases hb.adding h
  have hres := hb.fresh hpend
  rcases hcase with ⟨-, hfl⟩ | ⟨-, rfl⟩
  · have hpush : Counted os (b.pushEntry (b.grown key value) key) := ⟨hb.os_eq, hb.offset_eq⟩
    obtain ⟨hc, -, hp, hstart⟩ := hpush.flush hos (b.grown_rep_ne_nil key value) hfl
    refine ⟨hc, hadding, fun hf => absurd (hp.symm.trans hf) (by decide), ?_⟩
    have hsize : b'.filterBlock.result.length ≤ b.filterBlock.result.length + 2 ^ 29 :=
      (FilterBlockBuilder.startBlock_size hstart).2
    rwa [hres, List.length_nil, Nat.zero_add] at hsize
  · exact ⟨⟨hb.os_eq, hb.offset_eq⟩, hadding, fun _ => hres, hb.filters⟩

/-- **The `Add` calls** count what they append. -/
theorem addAll_counting (hb : Counting os b) (hos : ∀ i, (os i).failed = false)
    (h : b.addAll cmp l = .ok b') : Counting os b' := by
  induction l generalizing b with
  | nil => cases h; exact hb
  | cons e l ih =>
    obtain ⟨m, hm, h⟩ := Exec.bind_eq_ok.1 h
    exact ih (add_counting hb hos hm) h

/-- After an `Add` call the data block is not empty. -/
theorem addAll_rep_ne_nil (hb : Adding os b) (hne : l ≠ []) (h : b.addAll cmp l = .ok b') :
    b'.dataBlock.rep ≠ [] := by
  obtain ⟨l, e, rfl⟩ := List.eq_nil_or_concat l |>.resolve_left hne
  rw [List.concat_eq_append, addAll_append] at h
  obtain ⟨m, hm, hadd⟩ := Exec.bind_eq_ok.1 h
  have hgrown := m.grown_rep_ne_nil e.1 e.2
  obtain ⟨-, -, -, -, ⟨-, hfl⟩ | ⟨-, rfl⟩⟩ := add_cases (addAll_adding hb hm) hadd
  · obtain ⟨_, _, _, _, _, _, rfl⟩ := flush_frame hfl
    exact hgrown
  · exact hgrown

/-- The part of `Finish` that writes the filter block. -/
theorem Counted.writeFilterBlock (hc : Counted os b) (hos : ∀ i, (os i).failed = false)
    {handle : BlockHandle} (h : b.writeFilterBlock = .ok (b', handle)) :
    Counted os b' ∧ b'.status = .OK ∧ handle.size ≤
      b.filterBlock.result.length + 2 ^ 29 + 4 * (b.filterBlock.filterOffsets.length + 1) + 5 := by
  obtain ⟨⟨contents, filterBlock⟩, hfin, h⟩ := Exec.bind_eq_ok.1 h
  have hc₁ : Counted os { b with filterBlock } := ⟨hc.os_eq, hc.offset_eq⟩
  obtain ⟨f, hw, hc'⟩ := hc₁.writeBlock hos contents .make
  simp only [hw, Exec.pure_eq] at h
  cases h
  exact ⟨hc', rfl, FilterBlockBuilder.finish_size hfin⟩

/-- The part of `Finish` that writes the index block. -/
theorem Counted.writeIndexBlock (hc : Counted os b) (hos : ∀ i, (os i).failed = false)
    {handle : BlockHandle} (h : b.writeIndexBlock cmp = .ok (b', handle)) :
    Counted os b' ∧ b'.status = .OK := by
  obtain ⟨b₁, hb₁, h⟩ := Exec.bind_eq_ok.1 h
  have hc₁ : Counted os b₁ := by
    unfold addLastPending at hb₁
    split at hb₁
    · obtain ⟨_, -, hb₁⟩ := Exec.bind_eq_ok.1 hb₁
      obtain ⟨_, -, hb₁⟩ := Exec.bind_eq_ok.1 hb₁
      cases hb₁
      exact ⟨hc.os_eq, hc.offset_eq⟩
    · cases hb₁
      exact hc
  obtain ⟨f, hw, hc'⟩ := hc₁.writeBlock hos b₁.indexBlock.finish .make
  simp only [hw, Exec.pure_eq] at h
  cases h
  exact ⟨hc', rfl⟩

/-- The part of `Finish` that writes the footer: it counts more than it appends. -/
theorem Counted.writeFooter (hc : Counted os b) (hos : ∀ i, (os i).failed = false)
    {index filter : BlockHandle} (hfilter : filter.size < 2 ^ 63)
    (h : b.writeFooter index filter = .ok b') :
    b'.file.os = os ∧ ∃ missing, 0 < missing ∧ missing ≤ kFixedFooterSize ∧
      b'.offset = u64 (b'.appended + missing) := by
  obtain ⟨bytes, hbytes, h⟩ := Exec.bind_eq_ok.1 h
  obtain ⟨hlen, hcut⟩ := Footer.length_cString_encodeTo_lt hfilter hbytes
  obtain ⟨f, hf, hos', hcontent⟩ := WritableFile.append_of_accepting (f := b.file)
    (by rw [hc.os_eq]; exact hos) (cString bytes)
  simp only [hf, Status.ok, Bool.not_true, Bool.false_eq_true, ↓reduceIte, Exec.pure_eq] at h
  cases h
  refine ⟨hos'.trans hc.os_eq, kFixedFooterSize - (cString bytes).length, by omega, by omega, ?_⟩
  change u64 (b.offset + bytes.length) = u64 ((f.fd ++ f.buf).length + _)
  rw [hcontent, List.length_append, hc.offset_eq, hlen]
  simp only [u64, appended]
  omega

/-- **A finished table is too short**: some of the bytes counted for the footer are missing. -/
theorem build_missing (hos : ∀ i, (os i).failed = false) (hne : l ≠ []) {name : String}
    (h : build cmp os name l = .ok (.OK, b)) :
    b.file.buf = [] ∧ ∃ missing, 0 < missing ∧ missing ≤ kFixedFooterSize ∧
      b.fileSize = u64 (b.file.fd.length + missing) := by
  obtain ⟨b₀, hadd, hfin⟩ := Exec.bind_eq_ok.1 h
  have hcount := addAll_counting (counting_make os name) hos hadd
  have hrep := addAll_rep_ne_nil (adding_make os name) hne hadd
  obtain ⟨m, hblocks, -, ⟨hbad, -⟩ | ⟨-, rfl⟩⟩ := finish_cases hfin
  · exact absurd rfl hbad
  -- the status is OK to the end, so every part of `Finish` is reached
  obtain ⟨b₁, hfl, h₁⟩ := Exec.bind_eq_ok.1 hblocks
  obtain ⟨hc₁, hst₁, -, hstart⟩ := hcount.toCounted.flush hos hrep hfl
  have hc₁ : Counted os { b₁ with closed := true } := ⟨hc₁.os_eq, hc₁.offset_eq⟩
  obtain ⟨hoffsets, hresult⟩ := FilterBlockBuilder.startBlock_size hstart
  simp only [hst₁, Status.ok, Bool.not_true, Bool.false_eq_true, ↓reduceIte] at h₁
  obtain ⟨⟨b₂, filter⟩, hb₂, h₂⟩ := Exec.bind_eq_ok.1 h₁
  obtain ⟨hc₂, hst₂, hfilter⟩ := hc₁.writeFilterBlock hos hb₂
  have hfilter : filter.size < 2 ^ 63 := by
    have hres := hcount.filters
    have hoff : b₁.offset < 2 ^ 64 := by
      rw [show b₁.offset = _ from hc₁.offset_eq]
      exact Nat.mod_lt _ (by decide)
    have hdiv : b₁.offset / 2048 < 2 ^ 53 := by omega
    have hoffsets : b₁.filterBlock.filterOffsets.length = b₁.offset / 2048 := hoffsets
    change filter.size ≤ b₁.filterBlock.result.length + 2 ^ 29 +
      4 * (b₁.filterBlock.filterOffsets.length + 1) + 5 at hfilter
    omega
  simp only [hst₂, Bool.not_true, Bool.false_eq_true, ↓reduceIte] at h₂
  obtain ⟨⟨b₃, index⟩, hb₃, h₃⟩ := Exec.bind_eq_ok.1 h₂
  obtain ⟨hc₃, hst₃⟩ := hc₂.writeIndexBlock hos hb₃
  simp only [hst₃, Bool.not_true, Bool.false_eq_true, ↓reduceIte] at h₃
  obtain ⟨hosm, missing, hpos, hle, hoffset⟩ := hc₃.writeFooter hos hfilter h₃
  obtain ⟨f, hf, -, hfd, hbuf⟩ := WritableFile.flush_of_accepting (f := m.file)
    (by rw [hosm]; exact hos)
  refine ⟨by rw [hf]; exact hbuf, missing, hpos, hle, ?_⟩
  change m.offset = u64 (m.file.flush.2.fd.length + missing)
  rw [hf, hfd]
  exact hoffset

theorem length_ne_fileSize (hos : ∀ i, (os i).failed = false) (hne : l ≠ []) {name : String}
    (h : build cmp os name l = .ok (.OK, b)) : (b.file.fd ++ b.file.buf).length ≠ b.fileSize := by
  obtain ⟨hbuf, missing, hpos, hle, hsize⟩ := build_missing hos hne h
  rw [hbuf, List.append_nil, hsize]
  simp only [u64, kFixedFooterSize] at hle ⊢
  omega

/-- `FileSize` is the number of bytes appended, and the last of them are the encoded footer. -/
def FileSizeIsTrue (cmp : Comparator) (os : ℕ → WriteResult) (name : String)
    (l : List (Bytes × Bytes)) (b : TableBuilder) : Prop :=
  (b.file.fd ++ b.file.buf).length = b.fileSize ∧
    ∃ m footer bytes, (make (.make os name)).addAll cmp l = .ok m ∧
      m.finishFooter cmp = .ok footer ∧ Footer.encodeTo footer = .ok bytes ∧
      (b.file.fd ++ b.file.buf).drop ((b.file.fd ++ b.file.buf).length - kFixedFooterSize) = bytes

/-- **`FileSize` is never true.**  Whatever is added, a `Finish` that returns OK, with every write
accepted, leaves a file that is shorter than `FileSize`. -/
theorem fileSize_never_true (hos : ∀ i, (os i).failed = false) (hne : l ≠ []) {name : String}
    (h : build cmp os name l = .ok (.OK, b)) : ¬ FileSizeIsTrue cmp os name l b := by
  rintro ⟨hlen, -⟩
  exact length_ne_fileSize hos hne h hlen

/-- A table of one entry, with every write accepted. -/
theorem exists_build_one_entry : ∃ b,
    build sliceComparator (fun _ => .accept 100) "sstable_1" [([97], [98])] = .ok (.OK, b) := by
  have hrun : (build sliceComparator (fun _ => .accept 100) "sstable_1" [([97], [98])]).map
      Prod.fst = .ok .OK := by decide +kernel
  obtain ⟨⟨st, b⟩, hb, rfl⟩ := Exec.exists_of_map hrun
  exact ⟨b, hb⟩

/-- The file of that table is too short. -/
theorem fileSize_never_true_one_entry :
    ∃ b, build sliceComparator (fun _ => .accept 100) "sstable_1" [([97], [98])] = .ok (.OK, b) ∧
      ¬ FileSizeIsTrue sliceComparator (fun _ => .accept 100) "sstable_1" [([97], [98])] b := by
  obtain ⟨b, hb⟩ := exists_build_one_entry
  exact ⟨b, hb, fileSize_never_true (fun _ => rfl) (by simp) hb⟩

/-- Adding one entry already makes `FileSize` wrong. -/
theorem fileSize_counts_lost_footer :
    ¬ ∀ (cmp : Comparator) (os : ℕ → WriteResult) (name : String) (l : List (Bytes × Bytes))
      (b : TableBuilder), (∀ i, (os i).failed = false) → l ≠ [] →
        build cmp os name l = .ok (.OK, b) → FileSizeIsTrue cmp os name l b := by
  intro h
  obtain ⟨b, hb⟩ := exists_build_one_entry
  exact length_ne_fileSize (fun _ => rfl) (by simp) hb
    (h _ _ _ _ b (fun _ => rfl) (by simp) hb).1

end TableBuilder

end KoishiDB
