import KoishiDB.Disk.Block
import KoishiDB.Disk.Format
import KoishiDB.Util.Bloom

/-!
# Reading a table

`disk/random_access_file.cc`, `disk/sstable.cc` and `disk/sstable_iterator.cc`.  Opening a table
reads the footer, the index block and the filter block; the iterator goes through the index block
and keeps an iterator over the data block of the current index entry.

The filter block is used as a zero-terminated string, so a look at it ends at its first zero byte.
Without one `strlen` goes on in the memory behind the buffer, which is part of the model.

`readBlock_eq_some` and `SSTable.openTable_eq_some` say what the two readers take for a block and
for a table.
-/

namespace KoishiDB

/-- `class RandomAccessFile`: whether `open` succeeded, and what `pread` returns for an offset and a
length (`none` is an error). -/
structure RandomAccessFile where
  opened : Bool
  pread : ℕ → ℕ → Option Bytes
  /-- The memory that can be read behind the buffer of the filter block. -/
  behind : Bytes

namespace RandomAccessFile

/-- A file with the given content, all of whose reads succeed; `none` is a file that is not
there. -/
def ofContent (content : Option Bytes) : RandomAccessFile where
  opened := content.isSome
  pread offset n := some (((content.getD []).drop offset).take n)
  behind := []

/-- `RandomAccessFile::Read`: the status and the bytes read.  The status is that of the file, which
is never set: `status_.Corruption(...)` makes a new status. -/
def read (file : RandomAccessFile) (offset n : ℕ) : Exec (Status × Bytes) := do
  Exec.require (file.opened = true) "fd_ != -1"
  return (.OK, (file.pread offset n).getD [])

end RandomAccessFile

/-- `Slice(const char*)`: the bytes in front of the first zero byte of the memory, which must have
one. -/
def strlenSlice (memory : Bytes) : Exec Bytes :=
  if 0 ∈ memory then .ok (cString memory) else .error .outOfBounds

/-- `ReadBlock`. -/
def readBlock (file : RandomAccessFile) (handle : BlockHandle) : Exec (Option Bytes) := do
  let (status, result) ← file.read handle.offset handle.size
  if !status.ok then return none
  if result.length ≠ handle.size then return none
  return some result

/-- `class SSTable`. -/
structure SSTable where
  file : RandomAccessFile
  indexBlock : Bytes
  /-- The buffer with the filter block. -/
  filterData : Bytes

/-- `class SSTableIterator`. -/
structure SSTableIterator where
  file : RandomAccessFile
  indexIter : BlockIterator
  /-- The iterator over the current data block; `none` is the null pointer. -/
  dataIter : Option BlockIterator
  /-- The encoded handle of the current data block. -/
  dataBlockHandle : Bytes

namespace SSTableIterator

/-- The constructor. -/
def make (indexBlock : Bytes) (file : RandomAccessFile) : SSTableIterator :=
  ⟨file, .make indexBlock, none, []⟩

/-- `SSTableIterator::BlockReader`; `none` is the null pointer. -/
def blockReader (file : RandomAccessFile) (indexValue : Bytes) : Exec (Option BlockIterator) :=
  match BlockHandle.decodeFrom indexValue with
  | none => .ok none
  | some (handle, _) => do
    let content ← readBlock file handle
    return content.map BlockIterator.make

/-- `SSTableIterator::UpdateDataIterator`. -/
def updateDataIterator (it : SSTableIterator) : Exec SSTableIterator :=
  if !it.indexIter.valid then .ok { it with dataIter := none }
  else do
    let blockHandle ← it.indexIter.value
    let dataIter ← blockReader it.file blockHandle
    Exec.require (dataIter.isSome = true) "data_iter_ != nullptr"
    return { it with
      dataIter := dataIter.map BlockIterator.seekToFirst
      dataBlockHandle := blockHandle }

/-- `SSTableIterator::SeekToFirst`: in front of the first entry. -/
def seekToFirst (it : SSTableIterator) : Exec SSTableIterator := do
  let indexIter ← it.indexIter.seekToFirst.next
  updateDataIterator { it with indexIter }

/-- `data_iter_->`. -/
def data (it : SSTableIterator) : Exec BlockIterator :=
  match it.dataIter with
  | none => .error .nullptr
  | some data => .ok data

/-- The loop of `Next`. -/
def nextLoop : ℕ → SSTableIterator → Exec SSTableIterator
  | 0, _ => .error .diverges
  | fuel + 1, it => do
    let data ← it.data
    let data ← data.next
    let it := { it with dataIter := some data }
    if data.valid then return it
    let indexIter ← it.indexIter.next
    let it := { it with indexIter }
    if indexIter.valid then do
      let it ← it.updateDataIterator
      nextLoop fuel it
    else return it

/-- `SSTableIterator::Next`; every round but the last takes an entry of the index block. -/
def next (it : SSTableIterator) : Exec SSTableIterator := do
  Exec.require (it.dataIter.isSome = true) "data_iter_ != nullptr"
  nextLoop (it.indexIter.data.length + 1) it

/-- `SSTableIterator::Valid`. -/
def valid (it : SSTableIterator) : Exec Bool := do
  let data ← it.data
  return data.valid

/-- `SSTableIterator::Key`. -/
def key (it : SSTableIterator) : Exec Bytes := do
  let data ← it.data
  return data.key

/-- `SSTableIterator::Value`. -/
def value (it : SSTableIterator) : Exec Bytes := do
  let data ← it.data
  data.value

/-- `SSTableIterator::Seek`. -/
def seek (cmp : Comparator) (it : SSTableIterator) (target : Bytes) :
    Exec (SSTableIterator × Bool) := do
  let (indexIter, _) ← it.indexIter.seek cmp target
  let blockHandle ← indexIter.value
  let it := { it with indexIter }
  let it ← if blockHandle ≠ it.dataBlockHandle then it.updateDataIterator else .ok it
  Exec.require (it.dataIter.isSome = true) "data_iter_ != nullptr"
  let data ← it.data
  let (data, found) ← data.seek cmp target
  return ({ it with dataIter := some data }, found)

end SSTableIterator

namespace SSTable

/-- `SSTable::Open`; `none` is the empty `optional`. -/
def openTable (file : RandomAccessFile) (fileSize : ℕ) : Exec (Option SSTable) := do
  if fileSize < kFixedFooterSize then return none
  let (status, footerContent) ← file.read (fileSize - kFixedFooterSize) kFixedFooterSize
  if !status.ok then return none
  match Footer.decodeFrom footerContent with
  | none => return none
  | some footer =>
    match ← readBlock file footer.index with
    | none => return none
    | some indexBlock =>
      match ← readBlock file footer.filter with
      | none => return none
      | some filterData =>
        -- the filter reader is made from `Slice(rep->filter_data)`
        let _ ← strlenSlice (filterData ++ file.behind)
        return some ⟨file, indexBlock, filterData⟩

/-- `SSTable::NewIterator`. -/
def newIterator (t : SSTable) : SSTableIterator := .make t.indexBlock t.file

/-- `SSTable::InternalGet`.  The source frees the iterator before it asks it for the value; here
the value is read first. -/
def internalGet (cmp : Comparator) (t : SSTable) (key : Bytes) : Exec (Option Bytes) := do
  let filter ← strlenSlice (t.filterData ++ t.file.behind)
  if keyMayMatch key filter = false then return none
  let it ← t.newIterator.seekToFirst
  let (it, flag) ← it.seek cmp key
  let valid ← it.valid
  if !valid || flag = false then return none
  let value ← it.value
  return some value

end SSTable

/-! ### What the readers return -/

section Readers

variable {file : RandomAccessFile}

theorem RandomAccessFile.read_of_opened (hopen : file.opened = true) (offset n : ℕ) :
    file.read offset n = .ok (.OK, (file.pread offset n).getD []) := by
  rw [RandomAccessFile.read, Exec.require_of hopen]
  rfl

/-- The number of bytes is the only check that `ReadBlock` makes. -/
theorem readBlock_of_opened (hopen : file.opened = true) (handle : BlockHandle) :
    readBlock file handle =
      .ok (if ((file.pread handle.offset handle.size).getD []).length = handle.size then
        some ((file.pread handle.offset handle.size).getD []) else none) := by
  simp only [readBlock, RandomAccessFile.read_of_opened hopen, Exec.ok_bind, Status.ok,
    Bool.not_true, Bool.false_eq_true, ↓reduceIte, Exec.pure_eq, ne_eq, ite_not]
  split_ifs <;> rfl

theorem readBlock_eq_some (hopen : file.opened = true) {handle : BlockHandle} {content : Bytes} :
    readBlock file handle = .ok (some content) ↔
      (file.pread handle.offset handle.size).getD [] = content ∧ content.length = handle.size := by
  rw [readBlock_of_opened hopen, Except.ok.injEq]
  split_ifs with h
  · simp only [Option.some.injEq, iff_self_and]
    rintro rfl
    exact h
  · simp only [false_iff, not_and]
    rintro rfl
    exact h

/-- What `SSTable::Open` takes for a table. -/
theorem SSTable.openTable_eq_some (hopen : file.opened = true) {fileSize : ℕ} {t : SSTable} :
    SSTable.openTable file fileSize = .ok (some t) ↔
      kFixedFooterSize ≤ fileSize ∧ t.file = file ∧ 0 ∈ t.filterData ++ file.behind ∧
        ∃ footer, Footer.decodeFrom
            ((file.pread (fileSize - kFixedFooterSize) kFixedFooterSize).getD []) = some footer ∧
          readBlock file footer.index = .ok (some t.indexBlock) ∧
          readBlock file footer.filter = .ok (some t.filterData) := by
  by_cases hsize : fileSize < kFixedFooterSize
  · have : ¬ kFixedFooterSize ≤ fileSize := by omega
    simp [SSTable.openTable, hsize, this]
  have hle : kFixedFooterSize ≤ fileSize := by omega
  simp only [SSTable.openTable, hsize, hle, ↓reduceIte, RandomAccessFile.read_of_opened hopen,
    Exec.ok_bind, Status.ok, Bool.not_true, Bool.false_eq_true, Exec.pure_eq, true_and]
  cases Footer.decodeFrom
      ((file.pread (fileSize - kFixedFooterSize) kFixedFooterSize).getD []) with
  | none => simp
  | some footer =>
    obtain ⟨index, hindex⟩ : ∃ r, readBlock file footer.index = .ok r :=
      ⟨_, readBlock_of_opened hopen _⟩
    obtain ⟨filter, hfilter⟩ : ∃ r, readBlock file footer.filter = .ok r :=
      ⟨_, readBlock_of_opened hopen _⟩
    simp only [Option.some.injEq, exists_eq_left', hindex, hfilter, Exec.ok_bind, Except.ok.injEq]
    cases index with
    | none => simp
    | some index =>
      cases filter with
      | none => simp
      | some filter =>
        obtain ⟨tfile, tindex, tfilter⟩ := t
        simp only [Option.some.injEq, strlenSlice]
        split_ifs with hzero
        · simp only [Exec.ok_bind, Except.ok.injEq, Option.some.injEq, SSTable.mk.injEq]
          constructor
          · rintro ⟨rfl, rfl, rfl⟩
            exact ⟨rfl, hzero, rfl, rfl⟩
          · rintro ⟨rfl, -, rfl, rfl⟩
            exact ⟨rfl, rfl, rfl⟩
        · simp only [Exec.error_bind, reduceCtorEq, false_iff]
          rintro ⟨-, hmem, -, rfl⟩
          exact hzero hmem

end Readers

end KoishiDB
