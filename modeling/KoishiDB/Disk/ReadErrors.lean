import KoishiDB.Disk.SSTable

/-!
# Errors of `pread`

`RandomAccessFile::Read` is documented to return a status that is not OK when an error was
encountered.  `status_.Corruption(...)` is a static function whose result is dropped, so the status
that `Read` returns is always OK, and a failed `pread` looks like an empty one.  `ReadBlock` finds
most failures by the number of bytes; it takes the failure for success when the block has no bytes.
`SSTable::Open` does not look at the number of bytes of the footer at all.

A filter block without a zero byte, and so one whose read failed, does not keep `Open` from
returning a table: `strlen` ends at a zero byte somewhere behind the buffer.

* `readBlock_isSome_iff` : what `ReadBlock` takes for a block.
* `read_errors_surface_iff` : exactly when the errors come to the surface.
-/

namespace KoishiDB

namespace RandomAccessFile

variable (file : RandomAccessFile)

/-- `pread` did not fail, and it returned all the bytes asked for. -/
def ReadInFull (offset n : ℕ) : Prop := ∃ bytes, file.pread offset n = some bytes ∧ bytes.length = n

/-- A `pread` of no bytes that failed. -/
def EmptyFailure (handle : BlockHandle) : Prop :=
  handle.size = 0 ∧ file.pread handle.offset 0 = none

/-- `Read` returns a status that is not OK when its `pread` failed. -/
def ReadReports (offset n : ℕ) : Prop :=
  file.pread offset n = none →
    ∃ status bytes, file.read offset n = .ok (status, bytes) ∧ status.ok = false

/-- What `ReadBlock` takes for a block that was read. -/
def TakenAsRead (handle : BlockHandle) : Prop :=
  file.ReadInFull handle.offset handle.size ∨ file.EmptyFailure handle

/-- `ReadBlock` returns a block if and only if all its bytes were read. -/
def ReadBlockReports (handle : BlockHandle) : Prop :=
  (∃ content, readBlock file handle = .ok (some content)) ↔
    file.ReadInFull handle.offset handle.size

/-- `SSTable::Open` returns a table only if the footer and the two blocks that the footer names were
read without an error and in full. -/
def OpenReports (fileSize : ℕ) : Prop :=
  ∀ t, SSTable.openTable file fileSize = .ok (some t) →
    ∃ content footer, file.pread (fileSize - kFixedFooterSize) kFixedFooterSize = some content ∧
      content.length = kFixedFooterSize ∧ Footer.decodeFrom content = some footer ∧
      file.ReadInFull footer.index.offset footer.index.size ∧
      file.ReadInFull footer.filter.offset footer.filter.size

/-- The reads of `SSTable::Open` that look like success: the bytes read for the footer, however
many, are two handles, both blocks are taken as read, `strlen` finds a zero byte in the filter block
or behind it, and the footer was not read in full or the read of an empty block failed. -/
def Misread (fileSize : ℕ) : Prop :=
  kFixedFooterSize ≤ fileSize ∧ ∃ content footer,
    file.pread (fileSize - kFixedFooterSize) kFixedFooterSize = some content ∧
    Footer.decodeFrom content = some footer ∧
    file.TakenAsRead footer.index ∧ file.TakenAsRead footer.filter ∧
    0 ∈ (file.pread footer.filter.offset footer.filter.size).getD [] ++ file.behind ∧
    (content.length ≠ kFixedFooterSize ∨ file.EmptyFailure footer.index ∨
      file.EmptyFailure footer.filter)

variable {file}

/-! ### `Read` -/

/-- `Read` never reports a failure. -/
theorem readReports_iff (hopen : file.opened = true) (offset n : ℕ) :
    file.ReadReports offset n ↔ file.pread offset n ≠ none := by
  constructor
  · intro h hfail
    obtain ⟨status, bytes, hread, hstatus⟩ := h hfail
    rw [read_of_opened hopen] at hread
    cases hread
    cases hstatus
  · intro h hfail
    exact absurd hfail h

/-! ### `ReadBlock` -/

theorem readBlock_isSome_iff (hopen : file.opened = true) (handle : BlockHandle) :
    (∃ content, readBlock file handle = .ok (some content)) ↔ file.TakenAsRead handle := by
  simp only [readBlock_eq_some hopen, TakenAsRead, ReadInFull, EmptyFailure]
  cases hread : file.pread handle.offset handle.size with
  | some bytes =>
    -- a read that succeeded is no failure, whatever its length
    have : ¬ (handle.size = 0 ∧ file.pread handle.offset 0 = none) := by
      rintro ⟨hsize, hfail⟩
      rw [hsize, hfail] at hread
      cases hread
    simp [this]
  | none =>
    have : handle.size = 0 → file.pread handle.offset 0 = none := fun hsize => hsize ▸ hread
    simpa [eq_comm] using this

/-- A failed read of no bytes is no full read. -/
theorem EmptyFailure.not_readInFull {handle : BlockHandle} (h : file.EmptyFailure handle) :
    ¬ file.ReadInFull handle.offset handle.size := by
  rintro ⟨bytes, hbytes, -⟩
  rw [h.1, h.2] at hbytes
  cases hbytes

theorem readBlockReports_iff (hopen : file.opened = true) (handle : BlockHandle) :
    file.ReadBlockReports handle ↔ ¬ file.EmptyFailure handle := by
  rw [ReadBlockReports, readBlock_isSome_iff hopen]
  constructor
  · intro h hempty
    exact hempty.not_readInFull (h.1 (.inr hempty))
  · intro h
    exact or_iff_left h

/-! ### `SSTable::Open` -/

/-- A footer that decodes was read without an error. -/
theorem pread_of_decodeFrom {offset n : ℕ} {footer : Footer}
    (h : Footer.decodeFrom ((file.pread offset n).getD []) = some footer) :
    ∃ content, file.pread offset n = some content ∧ Footer.decodeFrom content = some footer := by
  cases hpread : file.pread offset n with
  | none =>
    rw [hpread] at h
    cases h
  | some content =>
    rw [hpread] at h
    exact ⟨content, rfl, h⟩

/-- What `SSTable::Open` takes for a table, in terms of the reads. -/
theorem openTable_isSome_iff (hopen : file.opened = true) (fileSize : ℕ) :
    (∃ t, SSTable.openTable file fileSize = .ok (some t)) ↔
      kFixedFooterSize ≤ fileSize ∧ ∃ content footer,
        file.pread (fileSize - kFixedFooterSize) kFixedFooterSize = some content ∧
        Footer.decodeFrom content = some footer ∧
        file.TakenAsRead footer.index ∧ file.TakenAsRead footer.filter ∧
        0 ∈ (file.pread footer.filter.offset footer.filter.size).getD [] ++ file.behind := by
  constructor
  · rintro ⟨t, ht⟩
    obtain ⟨hle, -, hzero, footer, hdecode, hindex, hfilter⟩ :=
      (SSTable.openTable_eq_some hopen).1 ht
    obtain ⟨content, hcontent, hfooter⟩ := pread_of_decodeFrom hdecode
    refine ⟨hle, content, footer, hcontent, hfooter, (readBlock_isSome_iff hopen _).1 ⟨_, hindex⟩,
      (readBlock_isSome_iff hopen _).1 ⟨_, hfilter⟩, ?_⟩
    rwa [((readBlock_eq_some hopen).1 hfilter).1]
  · rintro ⟨hle, content, footer, hcontent, hfooter, hindex, hfilter, hzero⟩
    obtain ⟨index, hindex⟩ := (readBlock_isSome_iff hopen _).2 hindex
    obtain ⟨filter, hfilter⟩ := (readBlock_isSome_iff hopen _).2 hfilter
    rw [((readBlock_eq_some hopen).1 hfilter).1] at hzero
    exact ⟨⟨file, index, filter⟩, (SSTable.openTable_eq_some hopen).2
      ⟨hle, rfl, hzero, footer, by rw [hcontent, Option.getD_some, hfooter], hindex, hfilter⟩⟩

theorem openReports_iff (hopen : file.opened = true) (fileSize : ℕ) :
    file.OpenReports fileSize ↔ ¬ file.Misread fileSize := by
  constructor
  · rintro h ⟨hle, content, footer, hcontent, hfooter, hindex, hfilter, hzero, hbad⟩
    -- the misread table is opened all the same
    obtain ⟨t, ht⟩ := (openTable_isSome_iff hopen fileSize).2
      ⟨hle, content, footer, hcontent, hfooter, hindex, hfilter, hzero⟩
    obtain ⟨content', footer', hcontent', hlen, hfooter', hindex', hfilter'⟩ := h t ht
    obtain rfl : content = content' := Option.some.inj (hcontent.symm.trans hcontent')
    obtain rfl : footer = footer' := Option.some.inj (hfooter.symm.trans hfooter')
    rcases hbad with hshort | hempty | hempty
    · exact hshort hlen
    · exact hempty.not_readInFull hindex'
    · exact hempty.not_readInFull hfilter'
  · intro h t ht
    obtain ⟨hle, content, footer, hcontent, hfooter, hindex, hfilter, hzero⟩ :=
      (openTable_isSome_iff hopen fileSize).1 ⟨t, ht⟩
    have hbad := mt (fun hbad => (⟨hle, content, footer, hcontent, hfooter, hindex, hfilter, hzero,
      hbad⟩ : file.Misread fileSize)) h
    simp only [not_or, not_not] at hbad
    obtain ⟨hlen, hindex', hfilter'⟩ := hbad
    exact ⟨content, footer, hcontent, hlen, hfooter, hindex.resolve_right hindex',
      hfilter.resolve_right hfilter'⟩

/-- **When read errors surface.**  For every file, all outcomes of `pread` on it and all memory
behind the buffer of the filter block: `Read` reports a failure of its `pread` for no offset and no
length; `ReadBlock` returns a block exactly when all its bytes were read, except where the `pread`
of a block of size zero failed; and `SSTable::Open` returns a table only after three full reads,
except where the footer is cut and still decodes, or the `pread` of a block of size zero failed. -/
theorem read_errors_surface_iff (file : RandomAccessFile) (hopen : file.opened = true) :
    (∀ offset n, file.ReadReports offset n ↔ file.pread offset n ≠ none) ∧
    (∀ handle, file.ReadBlockReports handle ↔ ¬ file.EmptyFailure handle) ∧
    ∀ fileSize, file.OpenReports fileSize ↔ ¬ file.Misread fileSize :=
  ⟨readReports_iff hopen, readBlockReports_iff hopen, openReports_iff hopen⟩

/-- A file with the given content, on which `pread` fails for the offsets that are negative as an
`off_t`. -/
def regular (content behind : Bytes) : RandomAccessFile where
  opened := true
  pread offset n := if 2 ^ 63 ≤ offset then none else some ((content.drop offset).take n)
  behind := behind

/-- A filter block of one byte, an index block of one byte, and the handles of the two. -/
def smallTable : Bytes := [0, 5, 1, 1, 0, 1]

/-- A table whose footer has all its 40 bytes. -/
def wholeTable : RandomAccessFile := regular (smallTable ++ List.replicate 36 0) []

theorem not_misread_wholeTable : ¬ wholeTable.Misread 42 := by
  rintro ⟨-, content, footer, hcontent, hfooter, -, -, -, hbad⟩
  obtain rfl := Option.some.inj hcontent
  obtain rfl := Option.some.inj hfooter
  rcases hbad with hshort | ⟨hsize, -⟩ | ⟨hsize, -⟩
  · exact hshort rfl
  · exact absurd hsize (by decide)
  · exact absurd hsize (by decide)

/-- The table with the whole footer is opened, and all its reads are reported as they were. -/
theorem read_errors_surface_iff_wholeTable :
    wholeTable.ReadReports 0 10 ∧ wholeTable.ReadBlockReports ⟨1, 1⟩ ∧ wholeTable.OpenReports 42 ∧
      SSTable.openTable wholeTable 42 = .ok (some ⟨wholeTable, [5], [0]⟩) := by
  obtain ⟨hread, hblock, hopen⟩ := read_errors_surface_iff wholeTable rfl
  refine ⟨(hread 0 10).2 (by simp [wholeTable, regular]), (hblock ⟨1, 1⟩).2 ?_,
    (hopen 42).2 not_misread_wholeTable, rfl⟩
  rintro ⟨hsize, -⟩
  cases hsize

/-- The table with a footer that ends behind its handles: a read at a negative offset comes back
with the status OK, the block of size zero there is returned as read, and the table is opened with
four of the 40 bytes of its footer.  With a file size of 40 the footer is read from its start, and
the table is opened if there is a zero byte behind the filter block. -/
theorem read_errors_hidden :
    ¬ (regular smallTable []).ReadReports (2 ^ 63) 10 ∧
      ¬ (regular smallTable []).ReadBlockReports ⟨2 ^ 63, 0⟩ ∧
      ¬ (regular smallTable []).OpenReports 42 ∧ ¬ (regular smallTable [0]).OpenReports 40 := by
  refine ⟨?_, ?_, ?_, ?_⟩
  · rw [readReports_iff rfl]
    simp [regular]
  · rw [readBlockReports_iff rfl]
    simp [EmptyFailure, regular]
  · rw [openReports_iff rfl, not_not]
    exact ⟨by decide, [1, 1, 0, 1], ⟨⟨1, 1⟩, ⟨0, 1⟩⟩, rfl, rfl, .inl ⟨[5], rfl, rfl⟩,
      .inl ⟨[0], rfl, rfl⟩, by decide, .inl (by decide)⟩
  · rw [openReports_iff rfl, not_not]
    exact ⟨by decide, smallTable, ⟨⟨0, 5⟩, ⟨1, 1⟩⟩, rfl, rfl, .inl ⟨[0, 5, 1, 1, 0], rfl, rfl⟩,
      .inl ⟨[5], rfl, rfl⟩, by decide, .inl (by decide)⟩

end RandomAccessFile

end KoishiDB
