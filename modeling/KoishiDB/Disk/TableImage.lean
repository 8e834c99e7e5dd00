import KoishiDB.Disk.SSTable

/-!
# Tables of one data block

The layout of the tables that `TableBuilder` can finish: data, filter block, index block and the
handles of the footer.  The index block has one entry, whose handle points to a data block
somewhere in the data.  Bytes behind the table do not matter, so the results here are about every
file that starts with the bytes of the table.

* `openTable_spec` : the table opens.
* `visits_spec` : iterating over it gives its entries, if the block is shorter than `2 ^ 32` bytes.
* `internalGet_of_seek` : what a search in it answers.
* `internalGet_absent` : a search for a key that compares equal to none of its keys finds nothing
  and faults nowhere.
-/

namespace KoishiDB

/-- What a table file of one data block consists of. -/
structure TableLayout where
  /-- The data blocks, one behind the other. -/
  front : Bytes
  /-- The filter block. -/
  filter : Bytes
  /-- The last key. -/
  lastKey : Bytes
  /-- The handle of the data block in the index. -/
  handle : BlockHandle

namespace TableLayout

/-- The index block. -/
def index (t : TableLayout) : Bytes := blockImage [(t.lastKey, t.handle.bytes)]

/-- The footer. -/
def footer (t : TableLayout) : Footer :=
  ⟨⟨t.front.length + t.filter.length, t.index.length⟩, ⟨t.front.length, t.filter.length⟩⟩

/-- The bytes of the table. -/
def content (t : TableLayout) : Bytes := t.front ++ (t.filter ++ (t.index ++ t.footer.handles))

/-- What `FileSize` says: the footer counts with its zero bytes, which are not in the file. -/
def fileSize (t : TableLayout) : ℕ :=
  t.front.length + t.filter.length + t.index.length + kFixedFooterSize

/-- The handle of the table points to a block with the entries `l`. -/
structure Stores (t : TableLayout) (l : List (Bytes × Bytes)) : Prop where
  block : (t.front.drop t.handle.offset).take t.handle.size = blockImage l
  size_eq : t.handle.size = (blockImage l).length
  entries : l ≠ []
  key_lt : t.lastKey.length < 2 ^ 32
  zero : 0 ∈ t.filter
  small : t.fileSize < 2 ^ 63

namespace Stores

variable {t : TableLayout} {l : List (Bytes × Bytes)}

theorem image_pos (h : t.Stores l) : 0 < (blockImage l).length := by
  have := two_mul_length_le l
  have := List.length_pos_iff.2 h.entries
  omega

/-- The block lies inside the data. -/
theorem offset_add_size_le (h : t.Stores l) :
    t.handle.offset + t.handle.size ≤ t.front.length := by
  have hlen := congrArg List.length h.block
  rw [List.length_take, List.length_drop, ← h.size_eq] at hlen
  have := h.image_pos
  rw [← h.size_eq] at this
  omega

theorem front_lt (h : t.Stores l) : t.front.length < 2 ^ 63 := by
  have := h.small
  unfold fileSize at this
  omega

theorem handle_isSet (h : t.Stores l) : t.handle.IsSet := by
  have h1 := h.offset_add_size_le
  have h2 := h.front_lt
  unfold BlockHandle.IsSet UINT64_MAX
  omega

theorem index_isSet (h : t.Stores l) : t.footer.index.IsSet := by
  have := h.small
  unfold fileSize at this
  change t.front.length + t.filter.length < UINT64_MAX ∧ t.index.length < UINT64_MAX
  unfold UINT64_MAX
  omega

theorem filter_isSet (h : t.Stores l) : t.footer.filter.IsSet := by
  have := h.small
  unfold fileSize at this
  change t.front.length < UINT64_MAX ∧ t.filter.length < UINT64_MAX
  unfold UINT64_MAX
  omega

theorem indexEntry_fits (h : t.Stores l) :
    BlockIterator.EntryFits (t.lastKey, t.handle.bytes) := by
  refine ⟨h.key_lt, ?_⟩
  have := t.handle.length_bytes_le
  dsimp only
  omega

end Stores

end TableLayout

/-! ### Opening a table -/

section Open

variable {t : TableLayout} {l : List (Bytes × Bytes)} {bs rest : Bytes}

/-- A read that lies inside the file. -/
theorem readBlock_ofContent {s : Bytes} {h : BlockHandle}
    (hread : (bs.drop h.offset).take h.size = s) (hs : h.size = s.length) :
    readBlock (.ofContent (some bs)) h = .ok (some s) := by
  rw [readBlock_eq_some rfl]
  exact ⟨hread, hs.symm⟩

theorem readBlock_between {a s c : Bytes} {h : BlockHandle} (ho : h.offset = a.length)
    (hs : h.size = s.length) :
    readBlock (.ofContent (some (a ++ (s ++ c)))) h = .ok (some s) :=
  readBlock_ofContent (by rw [ho, hs, List.drop_left' rfl, List.take_left' rfl]) hs

theorem readBlock_data (h : t.Stores l) :
    readBlock (.ofContent (some (t.content ++ rest))) t.handle = .ok (some (blockImage l)) := by
  have hle := h.offset_add_size_le
  refine readBlock_ofContent ?_ h.size_eq
  rw [TableLayout.content, List.append_assoc, List.drop_append_of_le_length (by omega),
    List.take_append_of_le_length (by rw [List.length_drop]; omega), h.block]

/-- The reader of the table that `Open` makes. -/
def TableLayout.reader (t : TableLayout) (bs : Bytes) : SSTable :=
  ⟨.ofContent (some bs), t.index, t.filter⟩

/-- Its filter block ends `strlen`. -/
theorem strlenSlice_reader (h : t.Stores l) (bs : Bytes) :
    strlenSlice ((t.reader bs).filterData ++ (t.reader bs).file.behind) =
      .ok (cString t.filter) := by
  have hbehind : (t.reader bs).filterData ++ (t.reader bs).file.behind = t.filter :=
    List.append_nil _
  rw [hbehind, strlenSlice, if_pos h.zero]

/-- **A table opens**, whatever stands behind it in the file. -/
theorem openTable_spec (h : t.Stores l) (rest : Bytes) :
    SSTable.openTable (.ofContent (some (t.content ++ rest))) t.fileSize =
      .ok (some (t.reader (t.content ++ rest))) := by
  have hsize : kFixedFooterSize ≤ t.fileSize := by unfold TableLayout.fileSize; omega
  have hpos : t.fileSize - kFixedFooterSize =
      (t.front ++ (t.filter ++ t.index)).length := by
    simp only [TableLayout.fileSize, List.length_append]; omega
  -- The footer is shorter than `kFixedFooterSize` when a handle is small, and read with what
  -- stands behind it.
  have hread : ((t.content ++ rest).drop (t.fileSize - kFixedFooterSize)).take kFixedFooterSize =
      t.footer.handles ++ rest.take (kFixedFooterSize - t.footer.handles.length) := by
    have hbytes : t.content ++ rest =
        (t.front ++ (t.filter ++ t.index)) ++ (t.footer.handles ++ rest) := by
      simp only [TableLayout.content, List.append_assoc]
    rw [hpos, hbytes, List.drop_left' rfl, List.take_append,
      List.take_of_length_le t.footer.length_handles_le]
  have hindex : readBlock (.ofContent (some (t.content ++ rest))) t.footer.index =
      .ok (some t.index) := by
    have := readBlock_between (a := t.front ++ t.filter) (c := t.footer.handles ++ rest)
      (s := t.index) (h := t.footer.index) (by rw [List.length_append]; rfl) rfl
    simpa only [TableLayout.content, List.append_assoc] using this
  have hfilter : readBlock (.ofContent (some (t.content ++ rest))) t.footer.filter =
      .ok (some t.filter) := by
    have := readBlock_between (a := t.front) (c := t.index ++ (t.footer.handles ++ rest))
      (s := t.filter) (h := t.footer.filter) rfl rfl
    simpa only [TableLayout.content, List.append_assoc] using this
  refine (SSTable.openTable_eq_some rfl).2
    ⟨hsize, rfl, List.mem_append_left _ h.zero, t.footer, ?_, hindex, hfilter⟩
  rw [← Footer.decodeFrom_handles h.index_isSet h.filter_isSet
    (rest.take (kFixedFooterSize - t.footer.handles.length)), ← hread]
  rfl

end Open

/-! ### Iterating over a table -/

/-- `Next` calls from `it` on give the entries `l`, and the one after them ends the iteration. -/
def Visits : SSTableIterator → List (Bytes × Bytes) → Prop
  | it, [] => ∃ it', it.next = .ok it' ∧ it'.valid = .ok false
  | it, e :: l => ∃ it', it.next = .ok it' ∧ it'.valid = .ok true ∧ it'.key = .ok e.1 ∧
      it'.value = .ok e.2 ∧ Visits it' l

section Iterate

variable {t : TableLayout} {l a : List (Bytes × Bytes)} {rest : Bytes} {it : SSTableIterator}
  {d : BlockIterator}

/-- The iterator is in the data block of the table, at `d`. -/
structure InBlock (t : TableLayout) (it : SSTableIterator) (d : BlockIterator) : Prop where
  data_eq : it.dataIter = some d
  index : it.indexIter.Before [(t.lastKey, t.handle.bytes)] []
  handle_eq : it.dataBlockHandle = t.handle.bytes

/-- `SeekToFirst` opens the data block and stands in front of its first entry. -/
theorem seekToFirst_spec (h : t.Stores l) (rest : Bytes) :
    ∃ it, (t.reader (t.content ++ rest)).newIterator.seekToFirst = .ok it ∧
      InBlock t it (.make (blockImage l)) := by
  have hb : ((t.reader (t.content ++ rest)).newIterator.indexIter.seekToFirst).Before []
      [(t.lastKey, t.handle.bytes)] := ⟨rfl, rfl⟩
  obtain ⟨index, hn, hb', hv, -, hval⟩ := BlockIterator.next_cons hb (by simp) h.indexEntry_fits
  refine ⟨⟨.ofContent (some (t.content ++ rest)), index, some (.make (blockImage l)),
    t.handle.bytes⟩, ?_, ⟨rfl, hb', rfl⟩⟩
  have hreader : SSTableIterator.blockReader (.ofContent (some (t.content ++ rest)))
      t.handle.bytes = .ok (some (.make (blockImage l))) := by
    have := BlockHandle.decodeFrom_bytes h.handle_isSet []
    rw [List.append_nil] at this
    simp only [SSTableIterator.blockReader, this, readBlock_data h, Exec.ok_bind, Exec.pure_eq,
      Option.map_some]
  have hfile : (t.reader (t.content ++ rest)).newIterator.file =
      .ofContent (some (t.content ++ rest)) := rfl
  simp only [SSTableIterator.seekToFirst, hn, Exec.ok_bind, SSTableIterator.updateDataIterator, hv,
    Bool.not_true, Bool.false_eq_true, ↓reduceIte, hval, hfile, hreader, Option.isSome_some,
    Exec.require, Exec.pure_eq, Option.map_some]
  rfl

/-- One `Next` call that stays in the data block. -/
theorem next_of_valid {d' : BlockIterator} (hit : InBlock t it d) (hn : d.next = .ok d')
    (hv : d'.valid = true) :
    it.next = .ok { it with dataIter := some d' } ∧
      InBlock t { it with dataIter := some d' } d' := by
  refine ⟨?_, ⟨rfl, hit.index, hit.handle_eq⟩⟩
  simp only [SSTableIterator.next, hit.data_eq, Option.isSome_some, Exec.require, ↓reduceIte,
    Exec.ok_bind, SSTableIterator.nextLoop, SSTableIterator.data, hn, hv, Exec.pure_eq]

/-- The `Next` call that leaves the data block ends the iteration: the index has no other entry. -/
theorem next_of_invalid {d' : BlockIterator} (hit : InBlock t it d) (hi : t.index.length < 2 ^ 32)
    (hn : d.next = .ok d') (hv : d'.valid = false) :
    ∃ it', it.next = .ok it' ∧ it'.valid = .ok false := by
  obtain ⟨hi, hiv⟩ := BlockIterator.next_nil hit.index hi
  refine ⟨{ it with dataIter := some d', indexIter := it.indexIter.skipValue }, ?_, ?_⟩
  · simp only [SSTableIterator.next, hit.data_eq, Option.isSome_some, Exec.require, ↓reduceIte,
      Exec.ok_bind, SSTableIterator.nextLoop, SSTableIterator.data, hn, hv, Bool.false_eq_true,
      hi, hiv, Exec.pure_eq]
  · simp only [SSTableIterator.valid, SSTableIterator.data, Exec.ok_bind, hv, Exec.pure_eq]

/-- **Iterating visits the entries in order**, if both blocks are shorter than `2 ^ 32` bytes. -/
theorem visits_spec (hit : InBlock t it d) (hi : t.index.length < 2 ^ 32) (hd : d.Before a l)
    (hlt : (blockImage (a ++ l)).length < 2 ^ 32) (hfits : ∀ e ∈ l, BlockIterator.EntryFits e) :
    Visits it l := by
  induction l generalizing a it d with
  | nil =>
    rw [List.append_nil] at hlt
    obtain ⟨hn, hv⟩ := BlockIterator.next_nil hd hlt
    exact next_of_invalid hit hi hn hv
  | cons e l ih =>
    have hlt' : (blockImage a).length < 2 ^ 32 :=
      (length_blockImage_le (List.prefix_append a (e :: l))).trans_lt hlt
    obtain ⟨d', hn, hd', hv, hk, hval⟩ :=
      BlockIterator.next_cons hd hlt' (hfits e (List.mem_cons_self ..))
    obtain ⟨hit', hin⟩ := next_of_valid hit hn hv
    refine ⟨_, hit', ?_, ?_, ?_, ih hin hd' (by simpa using hlt)
      fun e' he' => hfits e' (List.mem_cons_of_mem _ he')⟩
    · simp only [SSTableIterator.valid, SSTableIterator.data, Exec.ok_bind, hv, Exec.pure_eq]
    · simp only [SSTableIterator.key, SSTableIterator.data, Exec.ok_bind, hk, Exec.pure_eq]
    · simp only [SSTableIterator.value, SSTableIterator.data, Exec.ok_bind, hval]

/-- An iterator that is valid after `Next` has just read an entry. -/
theorem nextLoop_valid {it it' : SSTableIterator} {fuel : ℕ}
    (h : SSTableIterator.nextLoop fuel it = .ok it') (hv : it'.valid = .ok true) :
    ∃ d d' : BlockIterator, d.next = .ok d' ∧ it'.dataIter = some d' ∧ d'.valid = true := by
  induction fuel generalizing it with
  | zero => cases h
  | succ fuel ih =>
    obtain ⟨d, -, h⟩ := Exec.bind_eq_ok.1 h
    obtain ⟨d', hn, h⟩ := Exec.bind_eq_ok.1 h
    dsimp only at h
    split at h
    · rename_i hd
      cases h
      exact ⟨d, d', hn, rfl, hd⟩
    · rename_i hd
      obtain ⟨index, -, h⟩ := Exec.bind_eq_ok.1 h
      split at h
      · obtain ⟨it₁, -, h⟩ := Exec.bind_eq_ok.1 h
        exact ih h
      · cases h
        simp [SSTableIterator.valid, SSTableIterator.data, hd] at hv

/-- What an iterator visits has lengths of 32 bits. -/
theorem Visits.fits (h : Visits it l) : ∀ e ∈ l, BlockIterator.EntryFits e := by
  induction l generalizing it with
  | nil => simp
  | cons e l ih =>
    obtain ⟨it', hn, hv, hk, hval, hrest⟩ := h
    obtain ⟨_, -, hloop⟩ := Exec.bind_eq_ok.1 hn
    obtain ⟨d, d', hd, hdata, hdv⟩ := nextLoop_valid hloop hv
    obtain ⟨h1, h2⟩ := BlockIterator.next_lengths hd hdv
    have hkey : d'.key = e.1 := by
      simpa [SSTableIterator.key, SSTableIterator.data, hdata] using hk
    have hvalue : d'.value = .ok e.2 := by
      simpa [SSTableIterator.value, SSTableIterator.data, hdata] using hval
    have hlen : e.2.length ≤ d'.vlen := by
      unfold BlockIterator.value at hvalue
      split at hvalue
      · rw [← Except.ok.inj hvalue]; exact List.length_take_le _ _
      · cases hvalue
    exact List.forall_mem_cons.2 ⟨⟨hkey ▸ h1, hlen.trans_lt h2⟩, ih hrest⟩

theorem updateDataIterator_index {it it' : SSTableIterator}
    (h : it.updateDataIterator = .ok it') : it'.indexIter = it.indexIter := by
  unfold SSTableIterator.updateDataIterator at h
  split at h
  · cases h; rfl
  · obtain ⟨_, -, h⟩ := Exec.bind_eq_ok.1 h
    obtain ⟨_, -, h⟩ := Exec.bind_eq_ok.1 h
    obtain ⟨_, -, h⟩ := Exec.bind_eq_ok.1 h
    cases h; rfl

/-- `Next` stays in the table; with an index block of `2 ^ 32` bytes or more it never ends. -/
theorem nextLoop_index {it it' : SSTableIterator} {fuel : ℕ}
    (h : SSTableIterator.nextLoop fuel it = .ok it') :
    it'.indexIter.data = it.indexIter.data ∧
      (2 ^ 32 ≤ it.indexIter.data.length → it'.valid = .ok true) := by
  induction fuel generalizing it with
  | zero => cases h
  | succ fuel ih =>
    obtain ⟨d, -, h⟩ := Exec.bind_eq_ok.1 h
    obtain ⟨d', -, h⟩ := Exec.bind_eq_ok.1 h
    dsimp only at h
    split at h
    · rename_i hd
      cases h
      exact ⟨rfl, fun _ => by simp [SSTableIterator.valid, SSTableIterator.data, hd]⟩
    · obtain ⟨index, hn, h⟩ := Exec.bind_eq_ok.1 h
      have hdata : index.data = it.indexIter.data := (BlockIterator.next_frame hn).1
      split at h
      · obtain ⟨it₁, hu, h⟩ := Exec.bind_eq_ok.1 h
        have hu := updateDataIterator_index hu
        have := ih h
        rwa [hu, hdata] at this
      · rename_i hv
        cases h
        refine ⟨hdata, ?_⟩
        intro hle
        rw [BlockIterator.next_valid_of_le hn hle] at hv
        exact absurd rfl hv

/-- An iteration that ends has an index block of less than `2 ^ 32` bytes. -/
theorem Visits.index_lt (h : Visits it l) : it.indexIter.data.length < 2 ^ 32 := by
  induction l generalizing it with
  | nil =>
    by_contra hge
    obtain ⟨it', hn, hv⟩ := h
    obtain ⟨_, -, hloop⟩ := Exec.bind_eq_ok.1 hn
    rw [(nextLoop_index hloop).2 (not_lt.1 hge)] at hv
    cases hv
  | cons e l ih =>
    obtain ⟨it', hn, -, -, -, hrest⟩ := h
    obtain ⟨_, -, hloop⟩ := Exec.bind_eq_ok.1 hn
    rw [← (nextLoop_index hloop).1]
    exact ih hrest

/-- An iteration that ends has gone through less than `2 ^ 32` bytes. -/
theorem Visits.image_lt (h : Visits it l) (hit : InBlock t it d) (hd : d.Before a l)
    (hfront : (blockImage (a ++ l).dropLast).length < 2 ^ 32) :
    (blockImage (a ++ l)).length < 2 ^ 32 := by
  have hfits := h.fits
  induction l generalizing a it d with
  | nil =>
    by_contra hge
    rw [List.append_nil, not_lt] at hge
    obtain ⟨it', hn, hv⟩ := h
    cases hdn : d.next with
    | error e =>
      simp [SSTableIterator.next, hit.data_eq, Exec.require, SSTableIterator.nextLoop,
        SSTableIterator.data, hdn] at hn
    | ok d' =>
      have hdv := BlockIterator.next_valid_of_le hdn (by
        rw [hd.data_eq, List.append_nil]; exact hge)
      rw [(next_of_valid hit hdn hdv).1] at hn
      cases hn
      simp [SSTableIterator.valid, SSTableIterator.data, hdv] at hv
  | cons e l ih =>
    -- The entries in front are not the last, so they are within the bound of the hypothesis.
    have hlt : (blockImage a).length < 2 ^ 32 := by
      refine (length_blockImage_le ?_).trans_lt hfront
      rw [List.dropLast_append_of_ne_nil (by simp)]
      exact List.prefix_append _ _
    have hfits' := List.forall_mem_cons.1 hfits
    obtain ⟨d', hn, hd', hv, -, -⟩ := BlockIterator.next_cons hd hlt hfits'.1
    obtain ⟨hnext, hin⟩ := next_of_valid hit hn hv
    obtain ⟨it', hn', -, -, -, hrest⟩ := h
    cases hnext.symm.trans hn'
    have := ih hrest hin hd' (by simpa using hfront) hfits'.2
    simpa using this

end Iterate

/-! ### Searching a table -/

section Search

variable {cmp : Comparator} {t : TableLayout} {l : List (Bytes × Bytes)} {key : Bytes}

/-- Whatever the key, a search in the index block comes to the handle of the data block; behind the
last key it must be able to see the end of the index block. -/
theorem seek_index (h : t.Stores l) {c : ℤ} (hc : cmp t.lastKey key = .ok c)
    (hend : c = -1 → t.index.length < 2 ^ 32) {it : BlockIterator} (hit : it.data = t.index) :
    ∃ index found, it.seek cmp key = .ok (index, found) ∧ index.value = .ok t.handle.bytes := by
  by_cases h1 : c = -1
  · obtain ⟨index, hs, -, -, e, he, hval⟩ := BlockIterator.seek_end hit (by simp)
      (by simpa using h1 ▸ hc) (hend h1) (by simpa using h.indexEntry_fits)
    cases he
    exact ⟨index, _, hs, hval⟩
  · obtain ⟨index, hs, hon⟩ := BlockIterator.seek_stop (m := []) (b := []) hit (by simp) hc h1
      (by simp) (by simpa using h.indexEntry_fits)
    exact ⟨index, _, hs, hon.value_eq⟩

/-- **A search in a table** asks the filter and then looks into the data block. -/
theorem internalGet_of_seek (h : t.Stores l) {c : ℤ} (hc : cmp t.lastKey key = .ok c)
    (hend : c = -1 → t.index.length < 2 ^ 32) {data : BlockIterator} {found : Bool}
    (hseek : (BlockIterator.make (blockImage l)).seek cmp key = .ok (data, found)) (rest : Bytes) :
    (t.reader (t.content ++ rest)).internalGet cmp key =
      if keyMayMatch key (cString t.filter) = false then .ok none
      else if !data.valid || found = false then .ok none
      else data.value.map some := by
  have hfilter := strlenSlice_reader h (t.content ++ rest)
  obtain ⟨it, hit, hin⟩ := seekToFirst_spec h rest
  obtain ⟨index, _, hs, hvalue⟩ := seek_index h hc hend hin.index.data_eq
  have hseek' : it.seek cmp key =
      .ok ({ it with indexIter := index, dataIter := some data }, found) := by
    simp only [SSTableIterator.seek, hs, Exec.ok_bind, hvalue, hin.handle_eq, ne_eq,
      not_true_eq_false, ↓reduceIte, hin.data_eq, Option.isSome_some, Exec.require,
      SSTableIterator.data, hseek, Exec.pure_eq]
  simp only [SSTable.internalGet, hfilter, Exec.ok_bind, hit, hseek', SSTableIterator.valid,
    SSTableIterator.value, SSTableIterator.data, Exec.pure_eq]
  cases data.value <;> rfl

/-- **A search for a key that compares equal to no key of the table** finds nothing. -/
theorem internalGet_absent (h : t.Stores l) (hi : t.index.length < 2 ^ 32)
    (hlt : (blockImage l).length < 2 ^ 32) (hfits : ∀ e ∈ l, BlockIterator.EntryFits e)
    (hindex : ∃ c, cmp t.lastKey key = .ok c ∧ c ≠ 0)
    (hcmp : ∀ e ∈ l, ∃ c, cmp e.1 key = .ok c ∧ c ≠ 0) (rest : Bytes) :
    (t.reader (t.content ++ rest)).internalGet cmp key = .ok none := by
  obtain ⟨c, hc, -⟩ := hindex
  have hdata : (BlockIterator.make (blockImage l)).data = blockImage l := rfl
  obtain ⟨data, hds, -⟩ := BlockIterator.seek_absent hdata h.entries hlt hfits hcmp
  -- whatever the filter says, the answer is the same
  rw [internalGet_of_seek h hc (fun _ => hi) hds rest]
  simp

end Search

end KoishiDB
