import KoishiDB.Base.Machine
import KoishiDB.Disk.Layout

/-!
# Tables of several data blocks

`SSTableIterator` over any table image: an index block that lists data blocks, and reads that
succeed.  The iterator keeps an iterator over the index block and one over the current data block;
`At` says where the two stand, and `ToCome` what is still to come.

`SeekToFirst` stands in front of the first entry.  `Valid` there is about the first data block
alone, so it is false when that block is empty, although entries may follow.

`Seek` asks the index for a block and compares its handle with that of the current one.  Behind the
last key the index iterator has run off its end and still has the value of the last entry: if the
current block is another one, `UpdateDataIterator` sets the data iterator to null.

* `iterator_visits` : `Next` calls visit the entries of all blocks, in order and once each.
* `seek_right_iff` : when `Seek` does what it should, after any calls.
-/

namespace KoishiDB

/-- The entry of a data block in the index. -/
def DataBlock.indexEntry (d : DataBlock) : Bytes × Bytes := (d.key, d.handle.bytes)

/-- The entries of data blocks, one behind the other. -/
def allEntries (blocks : List DataBlock) : List (Bytes × Bytes) := blocks.flatMap DataBlock.entries

/-- A table image: an index block of at least one entry, and a read of every data block that
succeeds; every block is shorter than `2 ^ 32` bytes. -/
structure TableBlocks (file : RandomAccessFile) (index : Bytes) (blocks : List DataBlock) :
    Prop where
  nonempty : blocks ≠ []
  index_eq : index = blockImage (blocks.map DataBlock.indexEntry)
  index_lt : index.length < 2 ^ 32
  isSet : ∀ d ∈ blocks, d.handle.IsSet
  read : ∀ d ∈ blocks, readBlock file d.handle = .ok (some (blockImage d.entries))
  data_lt : ∀ d ∈ blocks, (blockImage d.entries).length < 2 ^ 32

namespace SSTableIterator

variable {file : RandomAccessFile} {index : Bytes} {blocks pre post : List DataBlock}
  {d : DataBlock} {it : SSTableIterator} {a b rest : List (Bytes × Bytes)} {e : Bytes × Bytes}

/-- The iterator is in the block `d`, behind the entries `a` of it and in front of the entries
`b`. -/
structure At (file : RandomAccessFile) (blocks pre : List DataBlock) (d : DataBlock)
    (post : List DataBlock) (a b : List (Bytes × Bytes)) (it : SSTableIterator) : Prop where
  split : blocks = pre ++ d :: post
  entries : d.entries = a ++ b
  file_eq : it.file = file
  index : it.indexIter.Before ((pre ++ [d]).map DataBlock.indexEntry)
    (post.map DataBlock.indexEntry)
  data : ∃ data, it.dataIter = some data ∧ data.Before a b
  handle_eq : it.dataBlockHandle = d.handle.bytes

/-- The entries `rest` are still to come. -/
def ToCome (file : RandomAccessFile) (blocks : List DataBlock) (rest : List (Bytes × Bytes))
    (it : SSTableIterator) : Prop :=
  ∃ pre d post a b, At file blocks pre d post a b it ∧ rest = b ++ allEntries post

theorem ToCome.file_eq (hcome : ToCome file blocks rest it) : it.file = file := by
  obtain ⟨pre, d, post, a, b, hat, -⟩ := hcome
  exact hat.file_eq

/-- What a `Next` call arrives at, with the given entries to come: the first of them, or the end. -/
def Arrives (file : RandomAccessFile) (blocks : List DataBlock) :
    List (Bytes × Bytes) → SSTableIterator → Prop
  | [], it => ToCome file blocks [] it ∧ it.valid = .ok false
  | e :: rest, it => ToCome file blocks rest it ∧ it.valid = .ok true ∧ it.key = .ok e.1 ∧
      it.value = .ok e.2

section Blocks

variable (h : TableBlocks file index blocks)
include h

theorem blockReader_of_mem (hd : d ∈ blocks) :
    blockReader file d.handle.bytes = .ok (some (.make (blockImage d.entries))) := by
  have hdecode := BlockHandle.decodeFrom_bytes (h.isSet d hd) []
  rw [List.append_nil] at hdecode
  simp only [blockReader, hdecode, h.read d hd, Exec.ok_bind, Exec.pure_eq, Option.map_some]

/-- `UpdateDataIterator` behind an index entry opens its block. -/
theorem updateDataIterator_on (it : SSTableIterator) (hsplit : blocks = pre ++ d :: post)
    (hfile : it.file = file)
    (hon : it.indexIter.On (pre.map DataBlock.indexEntry) d.indexEntry
      (post.map DataBlock.indexEntry)) :
    ∃ it', it.updateDataIterator = .ok it' ∧ At file blocks pre d post [] d.entries it' ∧
      it'.dataIter = some (.make (blockImage d.entries)) := by
  have hd : d ∈ blocks := by simp [hsplit]
  refine ⟨{ it with
    dataIter := some (.make (blockImage d.entries)), dataBlockHandle := d.handle.bytes }, ?_, ?_,
    rfl⟩
  · have hvalue : it.indexIter.value = .ok d.handle.bytes := hon.value_eq
    simp only [updateDataIterator, hon.valid, Bool.not_true, Bool.false_eq_true, ↓reduceIte, hvalue,
      hfile, blockReader_of_mem h hd, Exec.ok_bind, Option.isSome_some, Exec.require,
      Option.map_some, Exec.pure_eq]
    rfl
  · refine ⟨hsplit, rfl, hfile, ?_, ⟨_, rfl, BlockIterator.before_make _⟩, rfl⟩
    rw [List.map_append]
    exact hon.before

theorem indexEntry_fits (hd : d ∈ blocks) : BlockIterator.EntryFits d.indexEntry := by
  have hlt := h.index_lt
  rw [h.index_eq] at hlt
  exact BlockIterator.fits_of_image_lt hlt _ (List.mem_map_of_mem hd)

theorem indexEntries_fit {l : List DataBlock} (hl : ∀ d ∈ l, d ∈ blocks) :
    ∀ y ∈ l.map DataBlock.indexEntry, BlockIterator.EntryFits y :=
  List.forall_mem_map.2 fun d hd => indexEntry_fits h (hl d hd)

theorem length_index_lt {l : List DataBlock} (hl : l <+: blocks) :
    (blockImage (l.map DataBlock.indexEntry)).length < 2 ^ 32 := by
  have hlt := h.index_lt
  rw [h.index_eq] at hlt
  exact (length_blockImage_le (hl.map _)).trans_lt hlt

/-- **`SeekToFirst`** stands in front of the entries of the first block, and is valid if there are
any. -/
theorem seekToFirst_toCome (hfile : it.file = file) (hindex : it.indexIter.data = index) :
    ∃ it', it.seekToFirst = .ok it' ∧ ToCome file blocks (allEntries blocks) it' ∧
      it'.valid = .ok (decide ((blocks.head?.map DataBlock.entries) ≠ some [])) := by
  obtain ⟨d, post, rfl⟩ := List.exists_cons_of_ne_nil h.nonempty
  have hbefore : it.indexIter.seekToFirst.Before []
      (d.indexEntry :: post.map DataBlock.indexEntry) := ⟨hindex.trans h.index_eq, rfl⟩
  obtain ⟨index', hn, hon⟩ := hbefore.next_on (by simp) (indexEntry_fits h (by simp))
  have hsplit : d :: post = [] ++ d :: post := rfl
  obtain ⟨it', hu, hat, hdata⟩ := updateDataIterator_on h { it with indexIter := index' } hsplit
    hfile hon
  refine ⟨it', ?_, ⟨[], d, post, [], d.entries, hat, rfl⟩, ?_⟩
  · simp only [seekToFirst, hn, Exec.ok_bind, hu]
  · simp only [valid, SSTableIterator.data, hdata, Exec.ok_bind, Exec.pure_eq, BlockIterator.valid,
      BlockIterator.make, List.head?_cons, Option.map_some]
    by_cases hd : d.entries = []
    · simp [hd]
    · have hpos := List.length_pos_iff.2 (TableBuilder.blockImage_ne_nil hd)
      simp [hd, hpos]

theorem ToCome.index_data (hcome : ToCome file blocks rest it) : it.indexIter.data = index := by
  obtain ⟨pre, d, post, a, b, hat, -⟩ := hcome
  rw [hat.index.data_eq, ← List.map_append, h.index_eq, hat.split, List.append_assoc]
  rfl

/-- An iterator with the handle of a block has the block open: blocks of the same handle have the
same bytes. -/
theorem ToCome.data_of_handle (hcome : ToCome file blocks rest it) (hd : d ∈ blocks)
    (hsame : d.handle.bytes = it.dataBlockHandle) :
    ∃ data, it.dataIter = some data ∧ data.data = blockImage d.entries := by
  obtain ⟨pre₀, d₀, post₀, a, b, hat, -⟩ := hcome
  have hd₀ : d₀ ∈ blocks := by simp [hat.split]
  obtain ⟨data, hdata, hb⟩ := hat.data
  have hhandle := bytes_inj (h.isSet d hd) (h.isSet d₀ hd₀) (hsame.trans hat.handle_eq)
  have hread := h.read d hd
  rw [hhandle, h.read d₀ hd₀] at hread
  refine ⟨data, hdata, ?_⟩
  rw [hb.data_eq, ← hat.entries, Option.some.inj (Except.ok.inj hread)]

/-! ### Going forward -/

/-- A round of `Next` that reads an entry of the current block. -/
theorem nextLoop_cons (hat : At file blocks pre d post a (e :: b) it) (fuel : ℕ) :
    ∃ it', nextLoop (fuel + 1) it = .ok it' ∧ At file blocks pre d post (a ++ [e]) b it' ∧
      it'.valid = .ok true ∧ it'.key = .ok e.1 ∧ it'.value = .ok e.2 := by
  obtain ⟨data, hdata, hb⟩ := hat.data
  have hlt := h.data_lt d (by simp [hat.split])
  rw [hat.entries] at hlt
  obtain ⟨data', hn, hon⟩ := hb.next_on
    ((length_blockImage_le (List.prefix_append a _)).trans_lt hlt)
    (BlockIterator.fits_of_image_lt hlt e (by simp))
  refine ⟨{ it with dataIter := some data' }, ?_, ?_, ?_, ?_, ?_⟩
  · simp only [nextLoop, SSTableIterator.data, hdata, Exec.ok_bind, hn, hon.valid, ↓reduceIte,
      Exec.pure_eq]
  · exact ⟨hat.split, by simp [hat.entries], hat.file_eq, hat.index, ⟨data', rfl, hon.before⟩,
      hat.handle_eq⟩
  · simp only [valid, SSTableIterator.data, Exec.ok_bind, hon.valid, Exec.pure_eq]
  · simp only [key, SSTableIterator.data, Exec.ok_bind, hon.key_eq, Exec.pure_eq]
  · simp only [value, SSTableIterator.data, Exec.ok_bind, hon.value_eq]

/-- At the end of a block the data iterator becomes invalid. -/
theorem At.data_next (hat : At file blocks pre d post a [] it) :
    ∃ data, it.dataIter = some data ∧ data.Before a [] ∧ data.next = .ok data.skipValue ∧
      data.skipValue.valid = false := by
  obtain ⟨data, hdata, hb⟩ := hat.data
  have hlt := h.data_lt d (by simp [hat.split])
  rw [hat.entries, List.append_nil] at hlt
  obtain ⟨hn, hv⟩ := BlockIterator.next_nil hb hlt
  exact ⟨data, hdata, hb, hn, hv⟩

/-- A round of `Next` at the end of a block goes on to the next block. -/
theorem nextLoop_nil_cons {d' : DataBlock} (hat : At file blocks pre d (d' :: post) a [] it)
    (fuel : ℕ) :
    ∃ it', nextLoop (fuel + 1) it = nextLoop fuel it' ∧
      At file blocks (pre ++ [d]) d' post [] d'.entries it' := by
  obtain ⟨data, hdata, hb, hn, hv⟩ := hat.data_next h
  have hsplit : blocks = (pre ++ [d]) ++ d' :: post := by simp [hat.split]
  obtain ⟨index', hi, hon⟩ := hat.index.next_on
    (length_index_lt h (hsplit ▸ List.prefix_append _ _)) (indexEntry_fits h (by simp [hsplit]))
  obtain ⟨it', hu, hat', -⟩ := updateDataIterator_on h
    { it with dataIter := some data.skipValue, indexIter := index' } hsplit hat.file_eq hon
  refine ⟨it', ?_, hat'⟩
  simp only [nextLoop, SSTableIterator.data, hdata, Exec.ok_bind, hn, hv, Bool.false_eq_true,
    ↓reduceIte, hi, hon.valid, hu]

/-- A round of `Next` at the end of the last block ends the iteration. -/
theorem nextLoop_nil_nil (hat : At file blocks pre d [] a [] it) (fuel : ℕ) :
    ∃ it', nextLoop (fuel + 1) it = .ok it' ∧ At file blocks pre d [] a [] it' ∧
      it'.valid = .ok false := by
  obtain ⟨data, hdata, hb, hn, hv⟩ := hat.data_next h
  have hsplit : blocks = pre ++ [d] := hat.split
  obtain ⟨hi, hiv⟩ := BlockIterator.next_nil hat.index
    (length_index_lt h (hsplit ▸ List.prefix_rfl))
  refine ⟨{ it with dataIter := some data.skipValue, indexIter := it.indexIter.skipValue }, ?_, ?_,
    ?_⟩
  · simp only [nextLoop, SSTableIterator.data, hdata, Exec.ok_bind, hn, hv, Bool.false_eq_true,
      ↓reduceIte, hi, hiv, Exec.pure_eq]
  · exact ⟨hat.split, hat.entries, hat.file_eq, ⟨hat.index.data_eq, hat.index.pos_eq⟩,
      ⟨_, rfl, ⟨hb.data_eq, hb.pos_eq⟩⟩, hat.handle_eq⟩
  · simp only [valid, SSTableIterator.data, Exec.ok_bind, hv, Exec.pure_eq]

/-- The loop of `Next` comes to the next entry, or to the end. -/
theorem nextLoop_arrives {fuel : ℕ} (hat : At file blocks pre d post a b it)
    (hfuel : post.length < fuel) :
    ∃ it', nextLoop fuel it = .ok it' ∧ Arrives file blocks (b ++ allEntries post) it' := by
  -- by induction on the blocks behind the current one: an empty block is passed over
  induction post generalizing pre d a b it fuel with
  | nil =>
    obtain ⟨fuel, rfl⟩ := Nat.exists_eq_succ_of_ne_zero (Nat.ne_zero_of_lt hfuel)
    cases b with
    | nil =>
      obtain ⟨it', hn, hat', hv⟩ := nextLoop_nil_nil h hat fuel
      exact ⟨it', hn, ⟨pre, d, [], a, [], hat', rfl⟩, hv⟩
    | cons e b =>
      obtain ⟨it', hn, hat', hv⟩ := nextLoop_cons h hat fuel
      exact ⟨it', hn, ⟨pre, d, [], a ++ [e], b, hat', rfl⟩, hv⟩
  | cons d' post ih =>
    obtain ⟨fuel, rfl⟩ := Nat.exists_eq_succ_of_ne_zero (Nat.ne_zero_of_lt hfuel)
    cases b with
    | nil =>
      obtain ⟨it₁, hn, hat'⟩ := nextLoop_nil_cons h hat fuel
      obtain ⟨it', hn', hcase⟩ := ih hat' (by simpa using hfuel)
      exact ⟨it', hn.trans hn', hcase⟩
    | cons e b =>
      obtain ⟨it', hn, hat', hv⟩ := nextLoop_cons h hat fuel
      exact ⟨it', hn, ⟨pre, d, d' :: post, a ++ [e], b, hat', rfl⟩, hv⟩

/-- **`Next`** returns, and comes to the next entry or to the end. -/
theorem next_arrives (hcome : ToCome file blocks rest it) :
    ∃ it', it.next = .ok it' ∧ Arrives file blocks rest it' := by
  obtain ⟨pre, d, post, a, b, hat, rfl⟩ := hcome
  obtain ⟨data, hdata, -⟩ := hat.data
  have hfuel : post.length < it.indexIter.data.length + 1 := by
    have := two_mul_length_le ((pre ++ [d]).map DataBlock.indexEntry ++
      post.map DataBlock.indexEntry)
    rw [hat.index.data_eq]
    simp only [List.length_append, List.length_map] at this
    omega
  obtain ⟨it', hn, hcase⟩ := nextLoop_arrives h hat hfuel
  refine ⟨it', ?_, hcase⟩
  simp only [next, hdata, Option.isSome_some, Exec.require, ↓reduceIte, Exec.ok_bind, hn]

end Blocks

/-! ### The whole iteration -/

/-- `n` calls of `Next`. -/
def nexts (it : SSTableIterator) : ℕ → Exec SSTableIterator
  | 0 => .ok it
  | n + 1 => do
    let it ← it.nexts n
    it.next

theorem nexts_add (it : SSTableIterator) (n m : ℕ) :
    it.nexts (n + m) = (it.nexts n >>= fun it => it.nexts m) := by
  induction m with
  | zero =>
    rw [Nat.add_zero]
    cases it.nexts n <;> rfl
  | succ m ih =>
    rw [← Nat.add_assoc, nexts, ih]
    cases it.nexts n <;> rfl

theorem Arrives.toCome (harr : Arrives file blocks rest it) : ToCome file blocks rest.tail it := by
  cases rest with
  | nil => exact harr.1
  | cons e rest => exact harr.1

/-- **Any number of `Next` calls.** -/
theorem nexts_arrives (h : TableBlocks file index blocks) (hcome : ToCome file blocks rest it)
    (n : ℕ) : ∃ it', it.nexts (n + 1) = .ok it' ∧ Arrives file blocks (rest.drop n) it' := by
  induction n with
  | zero =>
    obtain ⟨it', hn, harr⟩ := next_arrives h hcome
    exact ⟨it', hn, harr⟩
  | succ n ih =>
    obtain ⟨it₁, hn₁, harr₁⟩ := ih
    obtain ⟨it', hn, harr⟩ := next_arrives h harr₁.toCome
    refine ⟨it', ?_, ?_⟩
    · rw [nexts, hn₁, Exec.ok_bind, hn]
    · rwa [List.tail_drop] at harr

/-- From the `start`-th call on, an iterator that is not valid stays so. -/
def StaysInvalid (start : ℕ) (it₀ : SSTableIterator) : Prop :=
  ∀ n m it it', start ≤ n → it₀.nexts n = .ok it → it.valid = .ok false →
    it.nexts m = .ok it' → it'.valid = .ok false

/-- `Next` calls from `it₀` on visit the entries `l`, each once and in order, and all return; what
comes behind the entries is not valid. -/
structure Iterates (it₀ : SSTableIterator) (l : List (Bytes × Bytes)) : Prop where
  visits : ∀ (n : ℕ) (e : Bytes × Bytes), l[n]? = some e → ∃ it, it₀.nexts (n + 1) = .ok it ∧
    it.valid = .ok true ∧ it.key = .ok e.1 ∧ it.value = .ok e.2
  ends : ∀ n, l.length ≤ n → ∃ it, it₀.nexts (n + 1) = .ok it ∧ it.valid = .ok false

theorem ToCome.iterates (h : TableBlocks file index blocks) (hcome : ToCome file blocks rest it) :
    Iterates it rest := by
  refine ⟨?_, ?_⟩
  · intro n e he
    obtain ⟨it', hn, harr⟩ := nexts_arrives h hcome n
    have hlt := (List.getElem?_eq_some_iff.1 he).1
    rw [List.drop_eq_getElem_cons hlt, (List.getElem?_eq_some_iff.1 he).2] at harr
    exact ⟨it', hn, harr.2⟩
  · intro n hle
    obtain ⟨it', hn, harr⟩ := nexts_arrives h hcome n
    rw [List.drop_of_length_le hle] at harr
    exact ⟨it', hn, harr.2⟩

/-- An iterator that is not valid after a `Next` call is behind all entries. -/
theorem Iterates.staysInvalid {it₀ : SSTableIterator} {l : List (Bytes × Bytes)}
    (h : Iterates it₀ l) : StaysInvalid 1 it₀ := by
  intro n m it it' hn hit hv hit'
  obtain ⟨n, rfl⟩ := Nat.exists_eq_succ_of_ne_zero (Nat.ne_of_gt hn)
  have hle : l.length ≤ n := by
    by_contra hlt
    obtain ⟨it₁, hit₁, hv₁, -⟩ := h.visits n _ (List.getElem?_eq_getElem (not_le.1 hlt))
    cases hit.symm.trans hit₁
    cases hv.symm.trans hv₁
  obtain ⟨it₂, hit₂, hv₂⟩ := h.ends (n + m) (by omega)
  have hsum : it₀.nexts (n + m + 1) = .ok it' := by
    rw [show n + m + 1 = n.succ + m by omega, nexts_add, hit, Exec.ok_bind, hit']
  cases hsum.symm.trans hit₂
  exact hv₂

/-- **Iterating over a table.**  For every table image and every iterator over it, `SeekToFirst` and
repeated `Next` calls visit exactly the entries of the data blocks in the order of the index, each
once; all calls return, and once the iterator is not valid after a `Next` call it stays so.  Right
after `SeekToFirst` it is valid if the first data block is not empty. -/
theorem iterator_visits (h : TableBlocks file index blocks) (hfile : it.file = file)
    (hindex : it.indexIter.data = index) :
    ∃ it₀, it.seekToFirst = .ok it₀ ∧ Iterates it₀ (allEntries blocks) ∧ StaysInvalid 1 it₀ ∧
      it₀.valid = .ok (decide ((blocks.head?.map DataBlock.entries) ≠ some [])) := by
  obtain ⟨it₀, hseek, hcome, hvalid⟩ := seekToFirst_toCome h hfile hindex
  have hiter := hcome.iterates h
  exact ⟨it₀, hseek, hiter, hiter.staysInvalid, hvalid⟩

/-- A table of an empty data block and one with an entry. -/
def emptyFirst : List DataBlock := [⟨[97], ⟨0, 0⟩, []⟩, ⟨[98], ⟨0, 4⟩, [([98], [99])]⟩]

/-- The file of that table. -/
def emptyFirstFile : RandomAccessFile := .ofContent (some (blockImage [([98], [99])]))

theorem emptyFirst_blocks : TableBlocks emptyFirstFile
    (blockImage (emptyFirst.map DataBlock.indexEntry)) emptyFirst where
  nonempty := by simp [emptyFirst]
  index_eq := rfl
  index_lt := by decide
  isSet := by
    intro d hd
    simp only [emptyFirst, List.mem_cons, List.not_mem_nil, or_false] at hd
    rcases hd with rfl | rfl <;> exact ⟨by decide, by decide⟩
  read := by decide
  data_lt := by decide

/-- Iterating over it visits its entry. -/
theorem iterator_visits_emptyFirst :
    ∃ it₀, (make (blockImage (emptyFirst.map DataBlock.indexEntry)) emptyFirstFile).seekToFirst =
        .ok it₀ ∧ Iterates it₀ [([98], [99])] ∧ StaysInvalid 1 it₀ ∧ it₀.valid = .ok false :=
  iterator_visits emptyFirst_blocks rfl rfl

/-- Right after `SeekToFirst` the iterator over that table is not valid, and then it is. -/
theorem seekToFirst_invalid_then_valid :
    ¬ ∀ (file : RandomAccessFile) (index : Bytes) (blocks : List DataBlock),
      TableBlocks file index blocks → ∃ it₀, (make index file).seekToFirst = .ok it₀ ∧
        Iterates it₀ (allEntries blocks) ∧ StaysInvalid 0 it₀ := by
  intro h
  obtain ⟨it₀, hseek, -, hstays⟩ := h _ _ _ emptyFirst_blocks
  have hrun : ((make (blockImage (emptyFirst.map DataBlock.indexEntry)) emptyFirstFile).seekToFirst
      >>= fun it₀ => it₀.nexts 1 >>= fun it₁ => it₀.valid >>= fun v₀ => it₁.valid >>= fun v₁ =>
        .ok (v₀, v₁)) = .ok (false, true) := by decide +kernel
  rw [hseek, Exec.ok_bind] at hrun
  obtain ⟨it₁, hn, hrun⟩ := Exec.bind_eq_ok.1 hrun
  obtain ⟨v₀, hv₀, hrun⟩ := Exec.bind_eq_ok.1 hrun
  obtain ⟨v₁, hv₁, hrun⟩ := Exec.bind_eq_ok.1 hrun
  obtain ⟨rfl, rfl⟩ := Prod.mk.inj (Except.ok.inj hrun)
  cases (hstays 0 1 it₀ it₁ le_rfl rfl hv₀ hn).symm.trans hv₁

/-! ### Seeking -/

/-- A call of an iterator behind `SeekToFirst`. -/
inductive Call where
  | next
  | seek (target : Bytes)

/-- The iterator behind a call. -/
def call (cmp : Comparator) (it : SSTableIterator) : Call → Exec SSTableIterator
  | .next => it.next
  | .seek target => do
    let (it, _) ← it.seek cmp target
    return it

/-- The current block is the last one. -/
def InLastBlock (blocks : List DataBlock) (it : SSTableIterator) : Prop :=
  ∃ d ∈ blocks.getLast?, it.dataBlockHandle = d.handle.bytes

/-- What `Seek` should do: it returns, finds the target if and only if a stored key compares equal
to it, then stands on that entry, and behind all keys it is not valid. -/
def SeekRight (cmp : Comparator) (blocks : List DataBlock) (it : SSTableIterator)
    (target : Bytes) : Prop :=
  ∃ it' found, it.seek cmp target = .ok (it', found) ∧
    (found = true ↔ ∃ e ∈ allEntries blocks, cmp e.1 target = .ok 0) ∧
    (∀ e ∈ allEntries blocks, cmp e.1 target = .ok 0 → it'.key = .ok e.1 ∧ it'.value = .ok e.2) ∧
    ((∀ e ∈ allEntries blocks, cmp e.1 target = .ok (-1)) → it'.valid = .ok false)

section Seek

variable {α : Type} [LinearOrder α] {cmp : Comparator} {D : Bytes → Prop} {rank : Bytes → α}
  {target : Bytes}

/-- A well-formed table: the data blocks are not empty, their entries are in strictly increasing
order, and the index has the last key of every block. -/
structure SortedTable (D : Bytes → Prop) (rank : Bytes → α) (file : RandomAccessFile)
    (index : Bytes) (blocks : List DataBlock) : Prop extends TableBlocks file index blocks where
  entries_ne : ∀ d ∈ blocks, d.entries ≠ []
  key_eq : ∀ d ∈ blocks, d.key = lastKeyOf d.entries
  sorted : (allEntries blocks).Pairwise fun e e' => rank e.1 < rank e'.1
  keys : ∀ e ∈ allEntries blocks, D e.1

theorem mem_allEntries (hd : d ∈ blocks) (he : e ∈ d.entries) : e ∈ allEntries blocks :=
  List.mem_flatMap.2 ⟨d, hd, he⟩

theorem allEntries_split (pre post : List DataBlock) (hentries : d.entries = a ++ e :: b) :
    allEntries (pre ++ d :: post) = (allEntries pre ++ a) ++ e :: (b ++ allEntries post) := by
  simp [allEntries, hentries]

/-- The first element with a property. -/
theorem exists_first {β : Type} {l : List β} {p : β → Prop} [DecidablePred p]
    (hex : ∃ x ∈ l, p x) : ∃ a x b, l = a ++ x :: b ∧ p x ∧ ∀ y ∈ a, ¬ p y := by
  cases hfind : l.find? fun x => decide (p x) with
  | none =>
    obtain ⟨x, hx, hp⟩ := hex
    exact absurd (decide_eq_true hp) (List.find?_eq_none.1 hfind x hx)
  | some x =>
    obtain ⟨hp, a, b, rfl, ha⟩ := List.find?_eq_some_iff_append.1 hfind
    exact ⟨a, x, b, rfl, of_decide_eq_true hp, by simpa using ha⟩

/-- `Seek` in the parts that it is made of. -/
theorem seek_of_open {index' data data' : BlockIterator} {it₁ : SSTableIterator}
    {found found' : Bool} {handle : Bytes}
    (hindex : it.indexIter.seek cmp target = .ok (index', found))
    (hvalue : index'.value = .ok handle)
    (hopen : (if handle ≠ it.dataBlockHandle then
      updateDataIterator { it with indexIter := index' }
      else .ok { it with indexIter := index' }) = .ok it₁)
    (hdata : it₁.dataIter = some data) (hseek : data.seek cmp target = .ok (data', found')) :
    it.seek cmp target = .ok ({ it₁ with dataIter := some data' }, found') := by
  by_cases hsame : handle ≠ it.dataBlockHandle
  · rw [if_pos hsame] at hopen
    simp only [seek, hindex, Exec.ok_bind, hvalue, if_pos hsame, hopen, hdata, Option.isSome_some,
      Exec.require, ↓reduceIte, SSTableIterator.data, hseek, Exec.pure_eq]
  · rw [if_neg hsame] at hopen
    obtain rfl := Except.ok.inj hopen
    have hdata' : it.dataIter = some data := hdata
    simp only [seek, hindex, Exec.ok_bind, hvalue, if_neg hsame, hdata', Option.isSome_some,
      Exec.require, ↓reduceIte, SSTableIterator.data, hseek, Exec.pure_eq]

variable (h : SortedTable D rank file index blocks) (hcmp : Orders cmp D rank) (ht : D target)
include h

/-- The key of a block in the index is that of its last entry. -/
theorem exists_lastEntry (hd : d ∈ blocks) :
    ∃ x ∈ d.entries, d.key = x.1 ∧ ∀ e ∈ d.entries, rank e.1 ≤ rank x.1 := by
  have hsub : List.Sublist d.entries (allEntries blocks) := by
    obtain ⟨pre, post, rfl⟩ := List.append_of_mem hd
    simp only [allEntries, List.flatMap_append, List.flatMap_cons]
    exact (List.sublist_append_left _ _).trans (List.sublist_append_right _ _)
  obtain ⟨x, hx, hlast, hmax⟩ := exists_last (h.entries_ne d hd) (h.sorted.sublist hsub)
  exact ⟨x, hx, (h.key_eq d hd).trans hlast, hmax⟩

/-- An iterator with the index iterator on the entry of `d` opens `d`, unless it is open. -/
theorem open_block (hcome : ToCome file blocks rest it) (hsplit : blocks = pre ++ d :: post)
    {index' : BlockIterator} (hon : index'.On (pre.map DataBlock.indexEntry) d.indexEntry
      (post.map DataBlock.indexEntry)) :
    ∃ it₁ data, (if d.handle.bytes ≠ it.dataBlockHandle then
        updateDataIterator { it with indexIter := index' }
      else .ok { it with indexIter := index' }) = .ok it₁ ∧ it₁.dataIter = some data ∧
      data.data = blockImage d.entries ∧
      ∀ a b data', d.entries = a ++ b → data'.Before a b →
        At file blocks pre d post a b { it₁ with dataIter := some data' } := by
  have hd : d ∈ blocks := by simp [hsplit]
  by_cases hsame : d.handle.bytes = it.dataBlockHandle
  · obtain ⟨data, hdata, himage⟩ := hcome.data_of_handle h.toTableBlocks hd hsame
    refine ⟨{ it with indexIter := index' }, data, by simp [hsame], hdata, himage, ?_⟩
    intro a b data' hentries hb'
    refine ⟨hsplit, hentries, hcome.file_eq, ?_, ⟨data', rfl, hb'⟩, hsame.symm⟩
    rw [List.map_append]
    exact hon.before
  · obtain ⟨it₁, hu, hat₁, hdata⟩ := updateDataIterator_on h.toTableBlocks
      { it with indexIter := index' } hsplit hcome.file_eq hon
    refine ⟨it₁, _, by simp [hsame, hu], hdata, rfl, ?_⟩
    intro a b data' hentries hb'
    exact ⟨hsplit, hentries, hat₁.file_eq, hat₁.index, ⟨data', rfl, hb'⟩, hat₁.handle_eq⟩

include hcmp ht

theorem compare_entry (he : e ∈ allEntries blocks) :
    cmp e.1 target = .ok (threeWay (rank e.1) (rank target)) :=
  hcmp _ _ (h.keys e he) ht

theorem compare_indexEntry (hd : d ∈ blocks) :
    cmp d.indexEntry.1 target = .ok (threeWay (rank d.key) (rank target)) := by
  obtain ⟨x, hx, hkey, -⟩ := exists_lastEntry h hd
  change cmp d.key target = _
  rw [hkey]
  exact compare_entry h hcmp ht (mem_allEntries hd hx)

omit hcmp ht in
/-- The first block whose last key is not in front of the target, and the first entry in it that is
not. -/
theorem exists_stop (hex : ∃ e ∈ allEntries blocks, rank target ≤ rank e.1) :
    ∃ pre d post a e b, blocks = pre ++ d :: post ∧ d.entries = a ++ e :: b ∧
      rank target ≤ rank e.1 ∧ rank target ≤ rank d.key ∧
      (∀ d' ∈ pre, rank d'.key < rank target) ∧ ∀ y ∈ a, rank y.1 < rank target := by
  obtain ⟨e₀, he₀, hle₀⟩ := hex
  obtain ⟨d₀, hd₀, he₀⟩ := List.mem_flatMap.1 he₀
  obtain ⟨x₀, -, hkey₀, hmax₀⟩ := exists_lastEntry h hd₀
  obtain ⟨pre, d, post, hsplit, hd, hpre⟩ := exists_first
    (p := fun d : DataBlock => rank target ≤ rank d.key)
    ⟨d₀, hd₀, hle₀.trans ((hmax₀ e₀ he₀).trans_eq (by rw [hkey₀]))⟩
  obtain ⟨x, hx, hkey, -⟩ := exists_lastEntry h (d := d) (by simp [hsplit])
  obtain ⟨a, e, b, hentries, he, ha⟩ := exists_first
    (p := fun e : Bytes × Bytes => rank target ≤ rank e.1) ⟨x, hx, hkey ▸ hd⟩
  exact ⟨pre, d, post, a, e, b, hsplit, hentries, he, hd, fun d' hd' => not_le.1 (hpre d' hd'),
    fun y hy => not_le.1 (ha y hy)⟩

omit hcmp ht in
/-- In front of the first entry that is not in front of the target all are. -/
theorem lt_of_mem_front (hsplit : blocks = pre ++ d :: post)
    (hpre : ∀ d' ∈ pre, rank d'.key < rank target) (ha : ∀ y ∈ a, rank y.1 < rank target) :
    ∀ y ∈ allEntries pre ++ a, rank y.1 < rank target := by
  intro y hy
  rcases List.mem_append.1 hy with hy | hy
  · obtain ⟨d', hd', hy⟩ := List.mem_flatMap.1 hy
    obtain ⟨x, -, hkey, hmax⟩ := exists_lastEntry h (d := d') (by simp [hsplit, hd'])
    exact (hmax y hy).trans_lt (hkey ▸ hpre d' hd')
  · exact ha y hy

/-- **`Seek` in the table**: it stands on the first entry that is not in front of the target, and
returns whether that compares equal. -/
theorem seek_inside (hcome : ToCome file blocks rest it)
    (hex : ∃ e ∈ allEntries blocks, rank target ≤ rank e.1) :
    ∃ it' front e back, it.seek cmp target = .ok (it', threeWay (rank e.1) (rank target) == 0) ∧
      ToCome file blocks back it' ∧ allEntries blocks = front ++ e :: back ∧
      (∀ y ∈ front, rank y.1 < rank target) ∧ rank target ≤ rank e.1 ∧
      it'.key = .ok e.1 ∧ it'.value = .ok e.2 := by
  obtain ⟨pre, d, post, a, e, b, hsplit, hentries, he, hkey, hpre, ha⟩ := exists_stop h hex
  have hd : d ∈ blocks := by simp [hsplit]
  have hmem : ∀ y ∈ a ++ [e], y ∈ d.entries := by
    intro y hy
    simp only [hentries, List.mem_append, List.mem_cons, List.not_mem_nil, or_false] at hy ⊢
    tauto
  have hdlt := h.data_lt d hd
  -- the index iterator comes to the entry of `d`
  have hindex : it.indexIter.data = blockImage (pre.map DataBlock.indexEntry ++
      d.indexEntry :: post.map DataBlock.indexEntry) := by
    rw [hcome.index_data h.toTableBlocks, h.index_eq, hsplit, List.map_append, List.map_cons]
  obtain ⟨index', hseek, hon⟩ := BlockIterator.seek_stop hindex
    (List.forall_mem_map.2 fun d' hd' => by
      rw [compare_indexEntry h hcmp ht (by simp [hsplit, hd']),
        threeWay_eq_neg_one.2 (hpre d' hd')])
    (compare_indexEntry h hcmp ht hd) (fun h1 => not_lt.2 hkey (threeWay_eq_neg_one.1 h1))
    (length_index_lt h.toTableBlocks (hsplit ▸ List.prefix_append _ _))
    (by
      change ∀ y ∈ _ ++ [d].map DataBlock.indexEntry, _
      rw [← List.map_append]
      refine indexEntries_fit h.toTableBlocks ?_
      intro d' hd'
      simp only [hsplit, List.mem_append, List.mem_cons, List.not_mem_nil, or_false] at hd' ⊢
      tauto)
  obtain ⟨it₁, data, hopen, hdata, himage, hat⟩ := open_block h hcome hsplit hon
  -- and the data iterator to the entry `e`
  rw [hentries] at himage hdlt
  obtain ⟨data', hseek', hon'⟩ := BlockIterator.seek_stop himage
    (fun y hy => by
      rw [compare_entry h hcmp ht (mem_allEntries hd (hmem y (by simp [hy]))),
        threeWay_eq_neg_one.2 (ha y hy)])
    (compare_entry h hcmp ht (mem_allEntries hd (hmem e (by simp))))
    (fun h1 => not_lt.2 he (threeWay_eq_neg_one.1 h1))
    ((length_blockImage_le (List.prefix_append a _)).trans_lt hdlt)
    (fun y hy => BlockIterator.fits_of_image_lt hdlt y (hentries ▸ hmem y hy))
  refine ⟨{ it₁ with dataIter := some data' }, allEntries pre ++ a, e, b ++ allEntries post, ?_,
    ⟨pre, d, post, a ++ [e], b, hat _ _ _ (by simp [hentries]) hon'.before, rfl⟩,
    hsplit ▸ allEntries_split pre post hentries, lt_of_mem_front h hsplit hpre ha, he, ?_, ?_⟩
  · exact seek_of_open hseek hon.value_eq hopen hdata hseek'
  · simp only [key, SSTableIterator.data, Exec.ok_bind, hon'.key_eq, Exec.pure_eq]
  · simp only [value, SSTableIterator.data, Exec.ok_bind, hon'.value_eq]

/-- Behind all keys the index iterator runs off its end, with the value of the last block. -/
theorem seek_index_behind (hcome : ToCome file blocks rest it)
    (hall : ∀ e ∈ allEntries blocks, rank e.1 < rank target) {d : DataBlock}
    (hlast : d ∈ blocks.getLast?) :
    ∃ index', it.indexIter.seek cmp target = .ok (index', false) ∧ index'.valid = false ∧
      index'.Before (blocks.map DataBlock.indexEntry) [] ∧ index'.value = .ok d.handle.bytes := by
  have hlt := length_index_lt h.toTableBlocks (List.prefix_refl blocks)
  have hdata := (hcome.index_data h.toTableBlocks).trans h.index_eq
  have hskip : ∀ y ∈ blocks.map DataBlock.indexEntry, cmp y.1 target = .ok (-1) := by
    refine List.forall_mem_map.2 ?_
    intro d' hd'
    obtain ⟨x, hx, hkey, -⟩ := exists_lastEntry h hd'
    rw [compare_indexEntry h hcmp ht hd', hkey,
      threeWay_eq_neg_one.2 (hall x (mem_allEntries hd' hx))]
  obtain ⟨index', hseek, hv, hb, y, hy, hval⟩ := BlockIterator.seek_end hdata
    (by simpa using h.nonempty) hskip hlt (indexEntries_fit h.toTableBlocks fun _ hd' => hd')
  refine ⟨index', hseek, hv, hb, ?_⟩
  rw [List.getLast?_map, Option.mem_def.1 hlast] at hy
  obtain rfl : d.indexEntry = y := by simpa using hy
  exact hval

/-- **`Seek` behind all keys** from the last block comes to the end. -/
theorem seek_behind_last (hcome : ToCome file blocks rest it)
    (hall : ∀ e ∈ allEntries blocks, rank e.1 < rank target) (hin : InLastBlock blocks it) :
    ∃ it', it.seek cmp target = .ok (it', false) ∧ ToCome file blocks [] it' ∧
      it'.valid = .ok false := by
  obtain ⟨d, hlast, hhandle⟩ := hin
  have hd := List.mem_of_getLast? hlast
  obtain ⟨index', hseek, -, hb, hvalue⟩ := seek_index_behind h hcmp ht hcome hall hlast
  obtain ⟨data, hdata, himage⟩ := hcome.data_of_handle h.toTableBlocks hd hhandle.symm
  have hlt := h.data_lt d hd
  have hskip : ∀ y ∈ d.entries, cmp y.1 target = .ok (-1) := by
    intro y hy
    rw [compare_entry h hcmp ht (mem_allEntries hd hy),
      threeWay_eq_neg_one.2 (hall y (mem_allEntries hd hy))]
  obtain ⟨data', hseek', hv', hb', -⟩ := BlockIterator.seek_end himage (h.entries_ne d hd) hskip hlt
    (BlockIterator.fits_of_image_lt hlt)
  have hsplit : blocks = blocks.dropLast ++ [d] := (List.dropLast_append_getLast? d hlast).symm
  refine ⟨{ it with indexIter := index', dataIter := some data' }, ?_,
    ⟨blocks.dropLast, d, [], d.entries, [], ⟨hsplit, by simp, hcome.file_eq, ?_,
      ⟨data', rfl, hb'⟩, hhandle⟩, rfl⟩, ?_⟩
  · exact seek_of_open hseek hvalue (if_neg (by simp [hhandle])) hdata hseek'
  · rw [← hsplit]
    exact hb
  · simp only [valid, SSTableIterator.data, Exec.ok_bind, hv', Exec.pure_eq]

/-- **`Seek` behind all keys** from another block fails its assertion. -/
theorem seek_behind_other (hcome : ToCome file blocks rest it)
    (hall : ∀ e ∈ allEntries blocks, rank e.1 < rank target) (hin : ¬ InLastBlock blocks it) :
    it.seek cmp target = .error (.assertion "data_iter_ != nullptr") := by
  obtain ⟨d, hlast⟩ : ∃ d, d ∈ blocks.getLast? := by
    cases hl : blocks.getLast? with
    | none => exact absurd (List.getLast?_eq_none_iff.1 hl) h.nonempty
    | some d => exact ⟨d, rfl⟩
  obtain ⟨index', hseek, hv, -, hvalue⟩ := seek_index_behind h hcmp ht hcome hall hlast
  have hother : d.handle.bytes ≠ it.dataBlockHandle := fun hsame => hin ⟨d, hlast, hsame.symm⟩
  simp [seek, hseek, hvalue, hother, updateDataIterator, hv, Exec.require]

/-- **One `Seek`**, from any position. -/
theorem seekRight_iff (hcome : ToCome file blocks rest it) : SeekRight cmp blocks it target ↔
    (∃ e ∈ allEntries blocks, rank target ≤ rank e.1) ∨ InLastBlock blocks it := by
  by_cases hex : ∃ e ∈ allEntries blocks, rank target ≤ rank e.1
  · refine iff_of_true ?_ (.inl hex)
    obtain ⟨it', front, e, back, hseek, -, hall, hfront, hle, hkey, hval⟩ :=
      seek_inside h hcmp ht hcome hex
    -- an entry that compares equal to the target can only be `e`
    have huniq : ∀ y ∈ allEntries blocks, cmp y.1 target = .ok 0 →
        rank e.1 = rank target ∧ y = e := by
      intro y hy h0
      rw [compare_entry h hcmp ht hy, Except.ok.injEq, threeWay_eq_zero] at h0
      have hsorted := h.sorted
      rw [hall] at hy hsorted
      rcases List.mem_append.1 hy with hy | hy
      · exact absurd h0 (hfront y hy).ne
      · rcases List.mem_cons.1 hy with rfl | hy
        · exact ⟨h0, rfl⟩
        · have hlt := (List.pairwise_cons.1 (List.pairwise_append.1 hsorted).2.1).1 y hy
          exact absurd h0 (hle.trans_lt hlt).ne'
    have he : e ∈ allEntries blocks := by simp [hall]
    refine ⟨it', _, hseek, ⟨?_, ?_⟩, ?_, ?_⟩
    · intro hfound
      exact ⟨e, he, by rw [compare_entry h hcmp ht he, eq_of_beq hfound]⟩
    · rintro ⟨y, hy, h0⟩
      exact beq_of_eq (threeWay_eq_zero.2 (huniq y hy h0).1)
    · intro y hy h0
      obtain rfl := (huniq y hy h0).2
      exact ⟨hkey, hval⟩
    · intro hsmaller
      have h1 := hsmaller e he
      rw [compare_entry h hcmp ht he, Except.ok.injEq, threeWay_eq_neg_one] at h1
      exact absurd h1 (not_lt.2 hle)
  · have hall : ∀ e ∈ allEntries blocks, rank e.1 < rank target := by
      intro e he
      exact not_le.1 fun hle => hex ⟨e, he, hle⟩
    rw [or_iff_right hex]
    by_cases hin : InLastBlock blocks it
    · refine iff_of_true ?_ hin
      obtain ⟨it', hseek, -, hv⟩ := seek_behind_last h hcmp ht hcome hall hin
      have hnone : ∀ e ∈ allEntries blocks, cmp e.1 target ≠ .ok 0 := by
        intro e he h0
        rw [compare_entry h hcmp ht he, Except.ok.injEq, threeWay_eq_zero] at h0
        exact (hall e he).ne h0
      refine ⟨it', false, hseek, ?_, fun e he h0 => absurd h0 (hnone e he), fun _ => hv⟩
      simpa using hnone
    · refine iff_of_false ?_ hin
      rintro ⟨it', found, hseek, -⟩
      cases (seek_behind_other h hcmp ht hcome hall hin).symm.trans hseek

omit ht in
/-- A call that returns leaves the iterator at some position of the table. -/
theorem call_toCome (hcome : ToCome file blocks rest it) {c : Call}
    (hc : ∀ t, c = .seek t → D t) {it' : SSTableIterator} (hstep : it.call cmp c = .ok it') :
    ∃ rest', ToCome file blocks rest' it' := by
  cases c with
  | next =>
    obtain ⟨it₁, hn, harr⟩ := next_arrives h.toTableBlocks hcome
    cases hn.symm.trans hstep
    exact ⟨_, harr.toCome⟩
  | seek t =>
    have ht := hc t rfl
    obtain ⟨⟨it₁, found⟩, hseek, hstep⟩ := Exec.bind_eq_ok.1 hstep
    obtain rfl := Except.ok.inj hstep
    by_cases hex : ∃ e ∈ allEntries blocks, rank t ≤ rank e.1
    · obtain ⟨it₂, front, e, back, hseek', hcome', -⟩ := seek_inside h hcmp ht hcome hex
      cases hseek.symm.trans hseek'
      exact ⟨back, hcome'⟩
    · have hall : ∀ e ∈ allEntries blocks, rank e.1 < rank t := by
        intro e he
        exact not_le.1 fun hle => hex ⟨e, he, hle⟩
      by_cases hin : InLastBlock blocks it
      · obtain ⟨it₂, hseek', hcome', -⟩ := seek_behind_last h hcmp ht hcome hall hin
        cases hseek.symm.trans hseek'
        exact ⟨[], hcome'⟩
      · cases (seek_behind_other h hcmp ht hcome hall hin).symm.trans hseek

omit ht in
/-- **Any calls** that return. -/
theorem run_toCome {it' : SSTableIterator} {calls : List Call}
    (hcalls : ∀ t, Call.seek t ∈ calls → D t) (hcome : ToCome file blocks rest it)
    (hrun : Machine.run (call cmp) it calls = .ok it') : ∃ rest', ToCome file blocks rest' it' := by
  refine Machine.run_invariant (I := fun it => ∃ rest, ToCome file blocks rest it)
    (C := fun _ c => ∀ t, c = Call.seek t → D t) ?_ ⟨rest, hcome⟩ ?_ hrun
  · rintro it c it' ⟨rest, hcome⟩ hc hstep
    exact call_toCome h hcmp hcome hc hstep
  · refine Machine.along_iff.2 ?_
    rintro ls₁ - hpre - - t rfl
    exact hcalls t (hpre.subset (by simp))

/-- **When `Seek` is right.**  For every well-formed table of any number of data blocks, after
`SeekToFirst` and any `Next` and `Seek` calls that returned, and for every target: `Seek` returns,
finds the target if and only if it is stored, stands on it then, and is not valid behind all keys,
if and only if the target is not behind all keys or the iterator is in the last data block. -/
theorem seek_right_iff {it₀ it₁ : SSTableIterator} {calls : List Call} (hfile : it.file = file)
    (hindex : it.indexIter.data = index) (hfirst : it.seekToFirst = .ok it₀)
    (hcalls : ∀ t, Call.seek t ∈ calls → D t)
    (hrun : Machine.run (call cmp) it₀ calls = .ok it₁) : SeekRight cmp blocks it₁ target ↔
      (∃ e ∈ allEntries blocks, rank target ≤ rank e.1) ∨ InLastBlock blocks it₁ := by
  obtain ⟨it₀', hfirst', hcome, -⟩ := seekToFirst_toCome h.toTableBlocks hfile hindex
  cases hfirst.symm.trans hfirst'
  obtain ⟨rest, hcome⟩ := run_toCome h hcmp hcalls hcome hrun
  exact seekRight_iff h hcmp ht hcome

end Seek

/-- A table of two data blocks, with the keys `a` and `b`. -/
def twoBlocks : List DataBlock := [⟨[97], ⟨0, 4⟩, [([97], [49])]⟩, ⟨[98], ⟨4, 4⟩, [([98], [50])]⟩]

/-- The index block of that table. -/
def twoBlocksIndex : Bytes := blockImage (twoBlocks.map DataBlock.indexEntry)

/-- The file of that table. -/
def twoBlocksFile : RandomAccessFile :=
  .ofContent (some (blockImage [([97], [49])] ++ blockImage [([98], [50])]))

theorem twoBlocks_sorted : SortedTable (fun _ => True) (id : Bytes → Bytes) twoBlocksFile
    twoBlocksIndex twoBlocks where
  nonempty := by simp [twoBlocks]
  index_eq := rfl
  index_lt := by decide
  isSet := by
    intro d hd
    simp only [twoBlocks, List.mem_cons, List.not_mem_nil, or_false] at hd
    rcases hd with rfl | rfl <;> exact ⟨by decide, by decide⟩
  read := by decide
  data_lt := by decide
  entries_ne := by decide
  key_eq := by decide
  sorted := by
    simp only [allEntries, twoBlocks, List.flatMap_cons, List.flatMap_nil, List.append_nil,
      List.singleton_append, List.pairwise_pair, id]
    decide
  keys := by simp

/-- Behind a `Seek` of `b` the iterator is in the last block, and a `Seek` of `c` is right. -/
theorem seek_right_iff_twoBlocks :
    ∃ it₀ it₁, (make twoBlocksIndex twoBlocksFile).seekToFirst = .ok it₀ ∧
      Machine.run (call TableBuilder.sliceComparator) it₀ [.seek [98]] = .ok it₁ ∧
      SeekRight TableBuilder.sliceComparator twoBlocks it₁ [99] := by
  have hrun : ((make twoBlocksIndex twoBlocksFile).seekToFirst >>= fun it₀ =>
      Machine.run (call TableBuilder.sliceComparator) it₀ [.seek [98]]).map dataBlockHandle =
        .ok (BlockHandle.bytes ⟨4, 4⟩) := by decide +kernel
  obtain ⟨it₁, hrun, hhandle⟩ := Exec.exists_of_map hrun
  obtain ⟨it₀, hfirst, hrun⟩ := Exec.bind_eq_ok.1 hrun
  refine ⟨it₀, it₁, hfirst, hrun, ?_⟩
  exact (seek_right_iff twoBlocks_sorted sliceComparator_orders trivial rfl rfl hfirst
    (fun _ _ => trivial) hrun).2 (.inr ⟨_, rfl, hhandle⟩)

/-- A `Seek` of `c` right after `SeekToFirst` fails an assertion. -/
theorem seek_behind_fails : ¬ ∀ (file : RandomAccessFile) (index : Bytes) (blocks : List DataBlock),
    SortedTable (fun _ => True) (id : Bytes → Bytes) file index blocks →
      ∀ (it₀ it₁ : SSTableIterator) (calls : List Call) (target : Bytes),
        (make index file).seekToFirst = .ok it₀ →
        Machine.run (call TableBuilder.sliceComparator) it₀ calls = .ok it₁ →
          SeekRight TableBuilder.sliceComparator blocks it₁ target := by
  intro h
  have hrun : (((make twoBlocksIndex twoBlocksFile).seekToFirst >>= fun it₀ =>
      .ok (it₀.seek TableBuilder.sliceComparator [99]).toOption.isSome) : Exec Bool) =
        .ok false := by decide +kernel
  obtain ⟨it₀, hfirst, hrun⟩ := Exec.bind_eq_ok.1 hrun
  obtain ⟨it', found, hseek, -⟩ := h _ _ _ twoBlocks_sorted it₀ it₀ [] [99] hfirst rfl
  rw [hseek] at hrun
  cases hrun

end SSTableIterator

end KoishiDB
