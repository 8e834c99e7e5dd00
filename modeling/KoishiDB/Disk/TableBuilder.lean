import KoishiDB.Disk.Block
import KoishiDB.Disk.FilterBlock
import KoishiDB.Disk.Format

/-!
# Building a table

`disk/table_builder.cc`.  `Add` collects the entries of a data block and flushes it when it has
grown to `kBlockSize`; `Finish` flushes the last block and writes the filter block, the index block
and the footer.  `Finish` is cut here into the part whose writes it checks (`finishBlocks`) and the
flush of the file at its end, whose status it does not look at.

* `finish_hides_nothing_iff` : when an OK status of `Finish` says that the whole table is in the
  file; what happened to the file at the last flush has no say in the status.
-/

namespace KoishiDB

/-- `struct TableBuilder::Rep`. -/
structure TableBuilder where
  file : WritableFile
  dataBlock : BlockBuilder
  indexBlock : BlockBuilder
  filterBlock : FilterBlockBuilder
  offset : ℕ
  numEntries : ℕ
  closed : Bool
  /-- The handle of the last data block. -/
  blockHandle : BlockHandle
  /-- The last data block has no entry in the index block yet. -/
  pendingIndexBlock : Bool
  lastKey : Bytes
  status : Status

namespace TableBuilder

/-- The constructor. -/
def make (file : WritableFile) : TableBuilder :=
  ⟨file, .make, .make, .make, 0, 0, false, .make, false, [], .OK⟩

/-- `TableBuilder::WriteBlock`: the builder, and the block handle afterwards. -/
def writeBlock (b : TableBuilder) (content : Bytes) (handle : BlockHandle) :
    TableBuilder × BlockHandle :=
  let (status, file) := b.file.append content
  if status.ok then
    ({ b with status := status, file := file, offset := u64 (b.offset + content.length) },
      ⟨b.offset, content.length⟩)
  else ({ b with status := status, file := file }, handle)

/-- `TableBuilder::Flush`.  The data block is not reset. -/
def flush (b : TableBuilder) : Exec TableBuilder := do
  Exec.require (b.closed = false) "!r->closed"
  if b.dataBlock.empty then return b
  let (b, handle) := b.writeBlock b.dataBlock.finish b.blockHandle
  let b := { b with blockHandle := handle }
  if !b.status.ok then return b
  let (status, file) := b.file.flush
  let filterBlock ← b.filterBlock.startBlock b.offset
  return { b with pendingIndexBlock := true, status, file, filterBlock }

/-- The entry of the last data block goes into the index block. -/
def addIndexEntry (cmp : Comparator) (b : TableBuilder) : Exec TableBuilder := do
  let blockHandle ← b.blockHandle.encodeTo
  let indexBlock ← b.indexBlock.add cmp b.lastKey blockHandle
  return { b with indexBlock, pendingIndexBlock := false }

/-- The part of `Add` for a pending index entry. -/
def addPending (cmp : Comparator) (b : TableBuilder) : Exec TableBuilder :=
  if b.pendingIndexBlock then do
    Exec.require (b.dataBlock.empty = true) "r->data_block.Empty()"
    b.addIndexEntry cmp
  else .ok b

/-- The key goes to the filter block; `dataBlock` is the data block with the entry in it. -/
def pushEntry (b : TableBuilder) (dataBlock : BlockBuilder) (key : Bytes) : TableBuilder :=
  { b with
    filterBlock := b.filterBlock.addKey key
    dataBlock := dataBlock
    lastKey := key
    numEntries := u64 (b.numEntries + 1) }

/-- `TableBuilder::Add`.  The assertion passes the last key as a zero-terminated string. -/
def add (cmp : Comparator) (b : TableBuilder) (key value : Bytes) : Exec TableBuilder := do
  Exec.require (b.closed = false) "!r->closed"
  requireAfter cmp key b.lastKey (.ofCStr b.lastKey)
    "r->last_key.empty() || r->opt->cmp->Compare(key, r->last_key.c_str()) == 1"
  let b ← b.addPending cmp
  let dataBlock ← b.dataBlock.add cmp key value
  let b := b.pushEntry dataBlock key
  if b.dataBlock.estimatedSize ≥ kBlockSize then b.flush else return b

/-- The `Add` calls for a list of entries. -/
def addAll (cmp : Comparator) (b : TableBuilder) (l : List (Bytes × Bytes)) : Exec TableBuilder :=
  l.foldlM (fun b e => b.add cmp e.1 e.2) b

/-- The part of `Finish` that writes the filter block. -/
def writeFilterBlock (b : TableBuilder) : Exec (TableBuilder × BlockHandle) := do
  let (contents, filterBlock) ← b.filterBlock.finish
  return { b with filterBlock }.writeBlock contents .make

/-- The part of `Finish` for a pending index entry. -/
def addLastPending (cmp : Comparator) (b : TableBuilder) : Exec TableBuilder :=
  if b.pendingIndexBlock then b.addIndexEntry cmp else .ok b

/-- The part of `Finish` that writes the index block. -/
def writeIndexBlock (cmp : Comparator) (b : TableBuilder) : Exec (TableBuilder × BlockHandle) := do
  let b ← b.addLastPending cmp
  return b.writeBlock b.indexBlock.finish .make

/-- The part of `Finish` that writes the footer; it passes it as a zero-terminated string, and
counts its whole size. -/
def writeFooter (b : TableBuilder) (index filter : BlockHandle) : Exec TableBuilder := do
  let footerEncoded ← Footer.encodeTo ⟨index, filter⟩
  let (status, file) := b.file.append (cString footerEncoded)
  if !status.ok then return { b with status, file }
  return { b with status, file, offset := u64 (b.offset + footerEncoded.length) }

/-- `Finish` up to its last file flush: every write is checked and ends it when it fails. -/
def finishBlocks (cmp : Comparator) (b : TableBuilder) : Exec TableBuilder := do
  let b ← b.flush
  let b := { b with closed := true }
  if !b.status.ok then return b
  let (b, filter) ← b.writeFilterBlock
  if !b.status.ok then return b
  let (b, index) ← b.writeIndexBlock cmp
  if !b.status.ok then return b
  b.writeFooter index filter

/-- The footer that `Finish` encodes once its blocks are written. -/
def finishFooter (cmp : Comparator) (b : TableBuilder) : Exec Footer := do
  let b ← b.flush
  let (b, filter) ← { b with closed := true }.writeFilterBlock
  let (_, index) ← b.writeIndexBlock cmp
  return ⟨index, filter⟩

/-- `TableBuilder::Finish`: the status returned, and the builder. -/
def finish (cmp : Comparator) (b : TableBuilder) : Exec (Status × TableBuilder) := do
  let b ← b.finishBlocks cmp
  if !b.status.ok then return (b.status, b)
  let (_, file) := b.file.flush
  return (b.status, { b with file })

/-- `TableBuilder::FileSize`. -/
def fileSize (b : TableBuilder) : ℕ := b.offset

/-! ### The status -/

/-- The status of `b'` says whether the writes between `b` and `b'` succeeded. -/
structure Checked (b b' : TableBuilder) : Prop where
  os_eq : b'.file.os = b.file.os
  calls_le : b.file.calls ≤ b'.file.calls
  ok_iff : b'.status = .OK ↔ AllAccepted b.file.os b.file.calls b'.file.calls

variable {cmp : Comparator} {b m b' : TableBuilder}

theorem Checked.refl (h : b.status = .OK) : Checked b b :=
  ⟨rfl, le_rfl, by simp [h, AllAccepted.empty]⟩

/-- A checked part that starts after a successful one. -/
theorem Checked.trans (h : Checked b m) (hok : m.status = .OK) (h' : Checked m b') :
    Checked b b' := by
  refine ⟨h'.os_eq.trans h.os_eq, h.calls_le.trans h'.calls_le, ?_⟩
  rw [h'.ok_iff, AllAccepted.trans_iff h.calls_le h'.calls_le, h.os_eq]
  exact (and_iff_right (h.ok_iff.1 hok)).symm

/-- Only the file and the status matter. -/
theorem Checked.congr (h : Checked b b') {c c' : TableBuilder} (hf : c.file = b.file)
    (hf' : c'.file = b'.file) (hs : c'.status = b'.status) : Checked c c' :=
  ⟨by rw [hf, hf', h.os_eq], by rw [hf, hf']; exact h.calls_le, by rw [hf, hf', hs]; exact h.ok_iff⟩

theorem checked_of_outcome {st : Status} {f : WritableFile} {w : Bytes}
    (h : b.file.Outcome st f w) (hf : b'.file = f) (hs : b'.status = st) : Checked b b' :=
  ⟨by rw [hf, h.os_eq], by rw [hf]; exact h.calls_le, by rw [hf, hs]; exact h.ok_iff⟩

theorem writeBlock_checked (b : TableBuilder) (content : Bytes) (handle : BlockHandle) :
    Checked b (b.writeBlock content handle).1 := by
  cases ha : b.file.append content with
  | mk st f =>
    have ho := WritableFile.append_spec ha
    unfold writeBlock
    simp only [ha]
    split <;> exact checked_of_outcome ho rfl rfl

theorem not_ok_iff {s : Status} : (!s.ok) = true ↔ s ≠ .OK := by
  rw [Bool.not_eq_true', ← Bool.not_eq_true, ne_eq, Status.ok_eq_true_iff]

/-- `WriteBlock` moves the offset and sets the handle, or it fails and leaves both. -/
theorem writeBlock_cases (b : TableBuilder) (content : Bytes) (handle : BlockHandle) :
    ∃ st f, st = Status.OK ∧ b.writeBlock content handle =
        ({ b with status := st, file := f, offset := u64 (b.offset + content.length) },
          ⟨b.offset, content.length⟩) ∨
      st ≠ .OK ∧ b.writeBlock content handle = ({ b with status := st, file := f }, handle) := by
  cases ha : b.file.append content with
  | mk st f =>
    refine ⟨st, f, ?_⟩
    by_cases hst : st = .OK
    · exact .inl ⟨hst, by simp [writeBlock, ha, hst, Status.ok]⟩
    · have hok : st.ok = false := by rwa [← Bool.not_eq_true, Status.ok_eq_true_iff]
      exact .inr ⟨hst, by simp [writeBlock, ha, hok]⟩

theorem writeBlock_frame {w : TableBuilder} {content : Bytes} {handle handle' : BlockHandle}
    (hw : b.writeBlock content handle = (w, handle')) :
    ∃ status file offset, w = { b with status, file, offset } := by
  obtain ⟨st, f, ⟨-, hw'⟩ | ⟨-, hw'⟩⟩ := writeBlock_cases b content handle
  · cases hw.symm.trans hw'
    exact ⟨_, _, _, rfl⟩
  · cases hw.symm.trans hw'
    exact ⟨_, _, _, rfl⟩

/-- What `Flush` can do: nothing, when the data block is empty; else the block is written, and if
that succeeds the file is flushed and the filter block is told the offset of the next block. -/
theorem flush_cases (h : b.flush = .ok b') :
    b.dataBlock.rep = [] ∧ b' = b ∨
    b.dataBlock.rep ≠ [] ∧ ∃ w handle, b.writeBlock b.dataBlock.finish b.blockHandle = (w, handle) ∧
      (w.status ≠ .OK ∧ b' = { w with blockHandle := handle } ∨
        w.status = .OK ∧ ∃ filterBlock, w.filterBlock.startBlock w.offset = .ok filterBlock ∧
          b' = { w with
            blockHandle := handle
            pendingIndexBlock := true
            status := w.file.flush.1
            file := w.file.flush.2
            filterBlock }) := by
  obtain ⟨-, -, h⟩ := Exec.bind_eq_ok.1 h
  split at h
  · rename_i hempty
    cases h
    exact .inl ⟨by simpa [BlockBuilder.empty, BlockBuilder.estimatedSize] using hempty, rfl⟩
  · rename_i hne
    refine .inr ⟨by simpa [BlockBuilder.empty, BlockBuilder.estimatedSize] using hne, _, _, rfl, ?_⟩
    dsimp only at h
    split at h
    · rename_i hst
      cases h
      exact .inl ⟨not_ok_iff.1 hst, rfl⟩
    · rename_i hst
      obtain ⟨filterBlock, hstart, h⟩ := Exec.bind_eq_ok.1 h
      cases h
      exact .inr ⟨Status.eq_OK_of_not hst, filterBlock, hstart, rfl⟩

/-- The part of the builder that `Flush` can change. -/
theorem flush_frame (h : b.flush = .ok b') :
    ∃ file offset blockHandle pendingIndexBlock status filterBlock, b' = { b with
      file, offset, blockHandle, pendingIndexBlock, status, filterBlock } := by
  rcases flush_cases h with ⟨-, rfl⟩ | ⟨-, w, handle, hw, hb'⟩
  · exact ⟨_, _, _, _, _, _, rfl⟩
  · obtain ⟨_, _, _, rfl⟩ := writeBlock_frame hw
    obtain ⟨-, rfl⟩ | ⟨-, filterBlock, -, rfl⟩ := hb'
    · exact ⟨_, _, _, _, _, _, rfl⟩
    · exact ⟨_, _, _, _, _, _, rfl⟩

/-- `Flush` of a data block that is not empty. -/
theorem flush_checked (hne : b.dataBlock.rep ≠ []) (h : b.flush = .ok b') : Checked b b' := by
  obtain ⟨hempty, -⟩ | ⟨-, w, handle, hw, hb'⟩ := flush_cases h
  · exact absurd hempty hne
  · have hchecked := writeBlock_checked b b.dataBlock.finish b.blockHandle
    rw [hw] at hchecked
    obtain ⟨-, rfl⟩ | ⟨hok, filterBlock, -, rfl⟩ := hb'
    · exact hchecked.congr rfl rfl rfl
    · exact hchecked.trans hok (checked_of_outcome (WritableFile.flush_spec rfl).1 rfl rfl)

theorem writeFilterBlock_checked {h : BlockHandle} (hw : b.writeFilterBlock = .ok (b', h)) :
    Checked b b' := by
  obtain ⟨⟨contents, filterBlock⟩, -, hw⟩ := Exec.bind_eq_ok.1 hw
  have := writeBlock_checked { b with filterBlock } contents .make
  rw [Except.ok.inj hw] at this
  exact this.congr rfl rfl rfl

theorem addIndexEntry_file (h : b.addIndexEntry cmp = .ok b') : b'.file = b.file := by
  obtain ⟨handle, -, h⟩ := Exec.bind_eq_ok.1 h
  obtain ⟨indexBlock, -, h⟩ := Exec.bind_eq_ok.1 h
  cases h; rfl

theorem writeIndexBlock_checked {h : BlockHandle} (hw : b.writeIndexBlock cmp = .ok (b', h)) :
    Checked b b' := by
  obtain ⟨b₁, hb₁, hw⟩ := Exec.bind_eq_ok.1 hw
  have hfile : b₁.file = b.file := by
    unfold addLastPending at hb₁
    split at hb₁
    · exact addIndexEntry_file hb₁
    · cases hb₁; rfl
  have := writeBlock_checked b₁ b₁.indexBlock.finish .make
  rw [Except.ok.inj hw] at this
  exact this.congr hfile.symm rfl rfl

theorem writeFooter_checked {index filter : BlockHandle}
    (hw : b.writeFooter index filter = .ok b') : Checked b b' := by
  obtain ⟨footerEncoded, -, hw⟩ := Exec.bind_eq_ok.1 hw
  cases ha : b.file.append (cString footerEncoded) with
  | mk st f =>
    have ho := WritableFile.append_spec ha
    simp only [ha] at hw
    split at hw <;> cases hw <;> exact checked_of_outcome ho rfl rfl

/-- **The checked part of `Finish`** ends with the status of its own writes. -/
theorem finishBlocks_checked (hempty : b.dataBlock.rep = [] → b.status = .OK)
    (h : b.finishBlocks cmp = .ok b') : Checked b b' := by
  obtain ⟨b₁, hfl, h⟩ := Exec.bind_eq_ok.1 h
  -- Each block is written only if the status before it was OK.
  have h₁ : Checked b b₁ := by
    by_cases hne : b.dataBlock.rep = []
    · obtain ⟨-, -, hfl⟩ := Exec.bind_eq_ok.1 hfl
      have he : b.dataBlock.empty = true := by
        simp [BlockBuilder.empty, BlockBuilder.estimatedSize, hne]
      simp only [he, ↓reduceIte, Exec.pure_eq] at hfl
      cases hfl
      exact .refl (hempty hne)
    · exact flush_checked hne hfl
  have h₁ : Checked b { b₁ with closed := true } := h₁.congr rfl rfl rfl
  dsimp only at h
  split at h
  · cases h; exact h₁
  rename_i hok₁
  obtain ⟨⟨b₂, filter⟩, hb₂, h⟩ := Exec.bind_eq_ok.1 h
  have h₂ := h₁.trans (Status.eq_OK_of_not hok₁) (writeFilterBlock_checked hb₂)
  simp only at h
  split at h
  · cases h; exact h₂
  rename_i hok₂
  obtain ⟨⟨b₃, index⟩, hb₃, h⟩ := Exec.bind_eq_ok.1 h
  have h₃ := h₂.trans (Status.eq_OK_of_not hok₂) (writeIndexBlock_checked hb₃)
  simp only at h
  split at h
  · cases h; exact h₃
  rename_i hok₃
  exact h₃.trans (Status.eq_OK_of_not hok₃) (writeFooter_checked h)

/-- What `Finish` does after its checked part. -/
theorem finish_cases {st : Status} (h : b.finish cmp = .ok (st, b')) :
    ∃ m, b.finishBlocks cmp = .ok m ∧ m.status = st ∧
      (st ≠ .OK ∧ b' = m ∨ st = .OK ∧ b' = { m with file := m.file.flush.2 }) := by
  obtain ⟨m, hm, h⟩ := Exec.bind_eq_ok.1 h
  split at h
  · rename_i hst
    cases h
    exact ⟨_, hm, rfl, .inl ⟨not_ok_iff.1 hst, rfl⟩⟩
  · rename_i hst
    cases h
    exact ⟨m, hm, rfl, .inr ⟨Status.eq_OK_of_not hst, rfl⟩⟩

/-! ### Building with failing writes -/

/-- What holds of a builder between `Add` calls, whatever the writes do: a pending block is still in
the data block, and a status other than OK comes from a block that was written. -/
structure Adding (os : ℕ → WriteResult) (b : TableBuilder) : Prop where
  os_eq : b.file.os = os
  pending : b.pendingIndexBlock = true → b.dataBlock.rep ≠ []
  empty : b.dataBlock.rep = [] → b.status = .OK

theorem adding_make (os : ℕ → WriteResult) (name : String) : Adding os (make (.make os name)) :=
  ⟨rfl, fun h => (Bool.false_ne_true h).elim, fun _ => rfl⟩

/-- The data block with one more entry. -/
def grown (b : TableBuilder) (key value : Bytes) : BlockBuilder :=
  ⟨b.dataBlock.rep ++ encodeEntry (key, value), key⟩

theorem grown_rep_ne_nil (b : TableBuilder) (key value : Bytes) : (b.grown key value).rep ≠ [] := by
  have := two_le_length_encodeEntry (key, value)
  intro h
  have := congrArg List.length h
  simp only [grown, List.length_append, List.length_nil] at this
  omega

variable {os : ℕ → WriteResult} {key value : Bytes}

/-- **The steps of an `Add` call** that goes through: no block is pending, the key is in order
under both assertions, and a data block that has reached `kBlockSize` is flushed. -/
theorem add_cases (hb : Adding os b) (h : b.add cmp key value = .ok b') :
    b.closed = false ∧ b.pendingIndexBlock = false ∧
    (b.lastKey = [] ∨ cmp key (.ofCStr b.lastKey) = .ok 1) ∧
    (b.dataBlock.lastKey = [] ∨ cmp key b.dataBlock.lastKey = .ok 1) ∧
    (kBlockSize ≤ (b.grown key value).rep.length ∧
        (b.pushEntry (b.grown key value) key).flush = .ok b' ∨
      (b.grown key value).rep.length < kBlockSize ∧ b' = b.pushEntry (b.grown key value) key) := by
  obtain ⟨_, hcl, h₁⟩ := Exec.bind_eq_ok.1 h
  obtain ⟨_, horder, h₂⟩ := Exec.bind_eq_ok.1 h₁
  obtain ⟨m, hm, h₃⟩ := Exec.bind_eq_ok.1 h₂
  -- A pending block would have to be empty, but `Flush` leaves the data block as it is.
  have hpend : b.pendingIndexBlock = false ∧ m = b := by
    unfold addPending at hm
    split at hm
    · rename_i hp
      obtain ⟨_, he, -⟩ := Exec.bind_eq_ok.1 hm
      have he := Exec.require_eq_ok.1 he
      have : b.dataBlock.rep = [] := by
        simpa [BlockBuilder.empty, BlockBuilder.estimatedSize] using he
      exact absurd this (hb.pending hp)
    · rename_i hp
      exact ⟨by simpa using hp, (Except.ok.inj hm).symm⟩
  obtain ⟨hpend, rfl⟩ := hpend
  obtain ⟨dataBlock, hd, h₄⟩ := Exec.bind_eq_ok.1 h₃
  obtain ⟨_, horder', hd'⟩ := Exec.bind_eq_ok.1 hd
  cases hd'
  refine ⟨Exec.require_eq_ok.1 hcl, hpend, requireAfter_eq_ok.1 horder,
    requireAfter_eq_ok.1 horder', ?_⟩
  dsimp only at h₄
  split at h₄
  · rename_i hsize
    exact .inl ⟨hsize, h₄⟩
  · rename_i hsize
    exact .inr ⟨not_le.1 hsize, (Except.ok.inj h₄).symm⟩

theorem add_adding (hb : Adding os b) (h : b.add cmp key value = .ok b') : Adding os b' := by
  have hne := b.grown_rep_ne_nil key value
  obtain ⟨-, -, -, -, ⟨-, hfl⟩ | ⟨-, rfl⟩⟩ := add_cases hb h
  · have hd : b'.dataBlock.rep ≠ [] := by
      obtain ⟨_, _, _, _, _, _, rfl⟩ := flush_frame hfl
      exact hne
    exact ⟨(flush_checked hne hfl).os_eq.trans hb.os_eq, fun _ => hd, fun h => absurd h hd⟩
  · exact ⟨hb.os_eq, fun _ => hne, fun h => absurd h hne⟩

theorem addAll_adding {l : List (Bytes × Bytes)} (hb : Adding os b)
    (h : b.addAll cmp l = .ok b') : Adding os b' := by
  induction l generalizing b with
  | nil => cases h; exact hb
  | cons e l ih =>
    obtain ⟨m, hm, h⟩ := Exec.bind_eq_ok.1 h
    exact ih (add_adding hb hm) h

/-- The table that `Add` calls and `Finish` build; `os` are the write calls of the file. -/
def build (cmp : Comparator) (os : ℕ → WriteResult) (name : String) (l : List (Bytes × Bytes)) :
    Exec (Status × TableBuilder) := do
  let b ← (make (.make os name)).addAll cmp l
  b.finish cmp

/-- **When `Finish` hides a failure.**  `b` is the builder after the `Add` calls, `m` the builder
before the file flush at the end of `Finish`, and `b'` the one it leaves.  An OK from `Finish`
means that no write failed during the build if and only if one of the writes that `Finish` checks
fails, or no write of the `Add` calls and none of the last flush does. -/
theorem finish_hides_nothing_iff {name : String} {l : List (Bytes × Bytes)} {st : Status}
    (hadd : (make (.make os name)).addAll cmp l = .ok b) (hm : b.finishBlocks cmp = .ok m)
    (hfin : b.finish cmp = .ok (st, b')) :
    (st = .OK → AllAccepted os 0 b'.file.calls) ↔
      (AllAccepted os 0 b.file.calls ∧ AllAccepted os m.file.calls b'.file.calls) ∨
        ¬ AllAccepted os b.file.calls m.file.calls := by
  have hb := addAll_adding (adding_make os name) hadd
  have hc := finishBlocks_checked hb.empty hm
  have hok : m.status = .OK ↔ AllAccepted os b.file.calls m.file.calls := hb.os_eq ▸ hc.ok_iff
  obtain ⟨m', hm', hst, hcase⟩ := finish_cases hfin
  cases hm.symm.trans hm'
  by_cases hall : AllAccepted os b.file.calls m.file.calls
  · have hst' : st = .OK := hst ▸ hok.2 hall
    obtain ⟨hne, -⟩ | ⟨-, rfl⟩ := hcase
    · exact absurd hst' hne
    · have hle : m.file.calls ≤ m.file.flush.2.calls := (WritableFile.flush_spec rfl).1.calls_le
      change (st = .OK → AllAccepted os 0 m.file.flush.2.calls) ↔ _
      rw [AllAccepted.trans_iff (Nat.zero_le b.file.calls) (hc.calls_le.trans hle),
        AllAccepted.trans_iff hc.calls_le hle]
      simp [hst', hall]
  · have hst' : st ≠ .OK := fun h => hall (hok.1 (hst.trans h))
    simp [hst', hall]

/-- The order of byte strings as a comparator. -/
def sliceComparator : Comparator := Slice.compare

/-- An operating system whose first write call fails. -/
def firstWriteFails (i : ℕ) : WriteResult :=
  if i = 0 then .error 5 "Input/output error" else .accept kBlockSize

/-- An operating system whose second write call fails. -/
def secondWriteFails (i : ℕ) : WriteResult :=
  if i = 1 then .error 5 "Input/output error" else .accept kBlockSize

/-- The builders on the way of a build that completes. -/
theorem build_parts {name : String} {l : List (Bytes × Bytes)} {st : Status}
    (h : build cmp os name l = .ok (st, b')) :
    ∃ b m, (make (.make os name)).addAll cmp l = .ok b ∧ b.finishBlocks cmp = .ok m ∧
      b.finish cmp = .ok (st, b') := by
  obtain ⟨b, hb, hfin⟩ := Exec.bind_eq_ok.1 h
  obtain ⟨m, hm, -⟩ := finish_cases hfin
  exact ⟨b, m, hb, hm, hfin⟩

/-- A table of one entry.  The first write call, for the data block, is one that `Finish` checks,
and it reports the failure; the second one is made by the flush at its end, and it says OK. -/
theorem finish_hides_nothing_iff_failing_writes :
    (∃ b m st b', (make (.make firstWriteFails "sstable_1")).addAll sliceComparator
          [([97], [98])] = .ok b ∧ b.finishBlocks sliceComparator = .ok m ∧
      b.finish sliceComparator = .ok (st, b') ∧ st ≠ .OK ∧
      ((st = .OK → AllAccepted firstWriteFails 0 b'.file.calls) ↔
        (AllAccepted firstWriteFails 0 b.file.calls ∧
          AllAccepted firstWriteFails m.file.calls b'.file.calls) ∨
        ¬ AllAccepted firstWriteFails b.file.calls m.file.calls)) ∧
    ∃ b m b', (make (.make secondWriteFails "sstable_1")).addAll sliceComparator [([97], [98])] =
        .ok b ∧ b.finishBlocks sliceComparator = .ok m ∧
      b.finish sliceComparator = .ok (.OK, b') ∧
      ((Status.OK = .OK → AllAccepted secondWriteFails 0 b'.file.calls) ↔
        (AllAccepted secondWriteFails 0 b.file.calls ∧
          AllAccepted secondWriteFails m.file.calls b'.file.calls) ∨
        ¬ AllAccepted secondWriteFails b.file.calls m.file.calls) := by
  constructor
  · have hrun : (build sliceComparator firstWriteFails "sstable_1" [([97], [98])]).map Prod.fst =
        .ok (WritableFile.posixError "sstable_1" 5 "Input/output error") := by decide +kernel
    obtain ⟨⟨st, b'⟩, hrun, rfl⟩ := Exec.exists_of_map hrun
    obtain ⟨b, m, hb, hm, hfin⟩ := build_parts hrun
    exact ⟨b, m, _, b', hb, hm, hfin, WritableFile.posixError_ne_ok _ _ _,
      finish_hides_nothing_iff hb hm hfin⟩
  · have hrun : (build sliceComparator secondWriteFails "sstable_1" [([97], [98])]).map Prod.fst =
        .ok .OK := by decide +kernel
    obtain ⟨⟨st, b'⟩, hrun, rfl⟩ := Exec.exists_of_map hrun
    obtain ⟨b, m, hb, hm, hfin⟩ := build_parts hrun
    exact ⟨b, m, b', hb, hm, hfin, finish_hides_nothing_iff hb hm hfin⟩

/-- `Finish` can return OK although a write failed: the status of its last flush is not looked
at. -/
theorem finish_drops_last_flush :
    ¬ ∀ (cmp : Comparator) (os : ℕ → WriteResult) (name : String) (l : List (Bytes × Bytes))
      (st : Status) (b' : TableBuilder), build cmp os name l = .ok (st, b') → st = .OK →
        AllAccepted os 0 b'.file.calls := by
  intro h
  have hrun : (build sliceComparator secondWriteFails "sstable_1" [([97], [98])]).map
      (fun x => (x.1, x.2.file.calls)) = .ok (.OK, 2) := by decide +kernel
  obtain ⟨⟨st, b'⟩, hrun, heq⟩ := Exec.exists_of_map hrun
  obtain ⟨rfl, hcalls⟩ := Prod.mk.inj heq
  have := h _ _ _ _ _ _ hrun rfl 1 (by decide) (by rw [hcalls]; decide)
  exact absurd this (by decide)

end TableBuilder

end KoishiDB
