import KoishiDB.Disk.FilterBlock

/-!
# Reading the filter block

`disk/filterblock_reader.cc`.  The reader takes the number of a filter from the offset of a data
block, and the bytes of the filter from the array of offsets at the end of the block.

For the block of any list of filters it finds the filter of the offset (`keyMayMatch_filterBlock`).

All keys of a table wait until the first data block is started, and then go into the first filter;
the filters behind it are empty.  So the block of a table with the filter `F` and `m` empty filters
behind it answers as `F` for offsets below `kFilterBase`, and `false` for those of the other `m`
(`keyMayMatch_first`, `keyMayMatch_empty`).

* `FilterBlockBuilder.finish_startBlock` : the block that is finished after a data block has been
  started at an offset.
-/

namespace KoishiDB

/-- `class FilterBlockReader`. -/
structure FilterBlockReader where
  /-- The block. -/
  data : Bytes
  /-- Where the array of offsets starts, `offset_ - data_`. -/
  offset : ℕ
  /-- The number of filters. -/
  num : ℕ
  baseLg : ℕ
deriving Repr, DecidableEq

namespace FilterBlockReader

/-- The constructor. -/
def make (contents : Bytes) : FilterBlockReader :=
  let n := contents.length
  if n < 5 then ⟨[], 0, 0, 0⟩
  else
    let baseLg := (contents.getD (n - 1) 0).toNat
    let lastWord := decodeFixed32 (contents.drop (n - 5))
    if lastWord > n - 5 then ⟨[], 0, 0, baseLg⟩
    else ⟨contents, lastWord, (n - 5 - lastWord) / 4, baseLg⟩

/-- `FilterBlockReader::KeyMayMatch`. -/
def keyMayMatch (r : FilterBlockReader) (blockOffset : ℕ) (key : Bytes) : Exec Bool :=
  -- a shift by all 64 bits or more is undefined; a byte from 128 on is a negative `char`
  if 64 ≤ r.baseLg then .error .overflow
  else
    let index := blockOffset >>> r.baseLg
    if index < r.num then
      let start := decodeFixed32 (r.data.drop (r.offset + index * 4))
      let limit := decodeFixed32 (r.data.drop (r.offset + index * 4 + 4))
      if start ≤ limit ∧ limit ≤ r.offset then
        .ok (KoishiDB.keyMayMatch key ((r.data.drop start).take (limit - start)))
      else if start = limit then .ok false
      else .ok true
    else .ok true

/-! ### Blocks of filters -/

theorem decodeFixed32_flatMap {ws : List ℕ} (hws : ∀ w ∈ ws, w < 2 ^ 32) {i w : ℕ}
    (hi : ws[i]? = some w) (rest : Bytes) :
    decodeFixed32 ((ws.flatMap encodeFixed32 ++ rest).drop (i * 4)) = w := by
  induction ws generalizing i with
  | nil => cases hi
  | cons v ws ih =>
    rw [List.flatMap_cons, List.append_assoc]
    cases i with
    | zero =>
      obtain rfl : v = w := by simpa using hi
      rw [Nat.zero_mul, List.drop_zero]
      exact decodeFixed32_encode (hws v (by simp)) _
    | succ i =>
      rw [Nat.succ_mul, Nat.add_comm, ← List.drop_drop, List.drop_left' (length_encodeFixed32 v)]
      exact ih (fun w hw => hws w (List.mem_cons_of_mem v hw)) (by simpa using hi)

/-- Where each of the filters starts, and where the last one ends. -/
def starts (Fs : List Bytes) : List ℕ :=
  (List.range (Fs.length + 1)).map fun i => (Fs.take i).flatten.length

/-- The block of a list of filters. -/
def filterBlock (Fs : List Bytes) : Bytes :=
  Fs.flatten ++ ((starts Fs).flatMap encodeFixed32 ++ [UInt8.ofNat kFilterBaseLg])

variable {Fs : List Bytes} {F : Bytes} {m : ℕ}

theorem length_flatten_take_le (Fs : List Bytes) (i : ℕ) :
    (Fs.take i).flatten.length ≤ Fs.flatten.length := by
  conv_rhs => rw [← List.take_append_drop i Fs, List.flatten_append, List.length_append]
  exact Nat.le_add_right _ _

theorem length_filterBlock (Fs : List Bytes) :
    (filterBlock Fs).length = Fs.flatten.length + (4 * (Fs.length + 1) + 1) := by
  rw [filterBlock, List.length_append, List.length_append,
    FilterBlockBuilder.length_flatMap_encodeFixed32]
  simp [starts]

/-- The words of the array of offsets, the offset of the array included. -/
theorem word_filterBlock (hF : Fs.flatten.length < 2 ^ 32) {i : ℕ} (hi : i ≤ Fs.length) :
    decodeFixed32 ((filterBlock Fs).drop (Fs.flatten.length + i * 4)) =
      (Fs.take i).flatten.length := by
  have hws : ∀ w ∈ starts Fs, w < 2 ^ 32 := by
    refine List.forall_mem_map.2 ?_
    intro j _
    exact (length_flatten_take_le Fs j).trans_lt hF
  rw [filterBlock, ← List.drop_drop, List.drop_left' rfl]
  refine decodeFixed32_flatMap hws ?_ _
  rw [starts, List.getElem?_map, List.getElem?_range (by omega)]
  rfl

theorem make_filterBlock (hF : Fs.flatten.length < 2 ^ 32) :
    make (filterBlock Fs) = ⟨filterBlock Fs, Fs.flatten.length, Fs.length, kFilterBaseLg⟩ := by
  have hlen := length_filterBlock Fs
  -- The reader takes the last word for the start of the array; it is the length of the filters.
  have hword : decodeFixed32 ((filterBlock Fs).drop ((filterBlock Fs).length - 5)) =
      Fs.flatten.length := by
    have hpos : (filterBlock Fs).length - 5 = Fs.flatten.length + Fs.length * 4 := by omega
    rw [hpos, word_filterBlock hF le_rfl, List.take_length]
  have hlast : ((filterBlock Fs).getD ((filterBlock Fs).length - 1) 0).toNat = kFilterBaseLg := by
    have hpos : (filterBlock Fs).length - 1 =
        (Fs.flatten ++ (starts Fs).flatMap encodeFixed32).length := by
      rw [List.length_append, FilterBlockBuilder.length_flatMap_encodeFixed32, hlen]
      simp [starts]
    rw [hpos, filterBlock, ← List.append_assoc, List.getD_append_right _ _ _ _ le_rfl,
      Nat.sub_self]
    rfl
  have h5 : ¬ (filterBlock Fs).length < 5 := by omega
  have hle : ¬ Fs.flatten.length > (filterBlock Fs).length - 5 := by omega
  have hnum : ((filterBlock Fs).length - 5 - Fs.flatten.length) / 4 = Fs.length := by omega
  simp only [make, if_neg h5, hword, hlast, if_neg hle, hnum]

/-- **The reader finds the filter of an offset.** -/
theorem keyMayMatch_filterBlock (hlt : Fs.flatten.length < 2 ^ 32) {blockOffset : ℕ}
    (hF : Fs[blockOffset / kFilterBase]? = some F) (key : Bytes) :
    (make (filterBlock Fs)).keyMayMatch blockOffset key = .ok (KoishiDB.keyMayMatch key F) := by
  have hindex : blockOffset >>> kFilterBaseLg = blockOffset / kFilterBase :=
    Nat.shiftRight_eq_div_pow _ _
  generalize blockOffset / kFilterBase = i at hF hindex
  -- the filters in front of `F` and those behind it
  obtain ⟨a, b, rfl, rfl⟩ : ∃ a b, Fs = a ++ F :: b ∧ a.length = i := by
    obtain ⟨hi, rfl⟩ := List.getElem?_eq_some_iff.1 hF
    refine ⟨Fs.take i, Fs.drop (i + 1), ?_, List.length_take_of_le hi.le⟩
    rw [← List.drop_eq_getElem_cons hi, List.take_append_drop]
  have hi : a.length < (a ++ F :: b).length := by simp
  have hstart := word_filterBlock hlt hi.le
  have hlimit := word_filterBlock hlt (Nat.succ_le_of_lt hi)
  have hnext : ((a ++ F :: b).take a.length.succ).flatten.length =
      a.flatten.length + F.length := by
    rw [show a ++ F :: b = (a ++ [F]) ++ b by simp, List.take_left' (by simp)]
    simp
  have hflat : (a ++ F :: b).flatten = a.flatten ++ (F ++ b.flatten) := by simp
  rw [List.take_left' rfl] at hstart
  rw [Nat.succ_mul, ← Nat.add_assoc, hnext] at hlimit
  have hslice : ((filterBlock (a ++ F :: b)).drop a.flatten.length).take F.length = F := by
    rw [filterBlock, hflat, List.append_assoc, List.drop_left' rfl, List.append_assoc,
      List.take_left' rfl]
  have hle : a.flatten.length + F.length ≤ (a ++ F :: b).flatten.length := by
    rw [hflat, List.length_append, List.length_append]
    omega
  have hlg : ¬ 64 ≤ kFilterBaseLg := by decide
  rw [make_filterBlock hlt]
  simp only [keyMayMatch, if_neg hlg, hindex, hi, ↓reduceIte, hstart, hlimit, hle,
    Nat.le_add_right, and_self, Nat.add_sub_cancel_left, hslice]

/-! ### Blocks of one filter -/

/-- The block of the filter `F` and `m` empty filters behind it. -/
def oneFilter (F : Bytes) (m : ℕ) : Bytes :=
  F ++ ((0 :: List.replicate (m + 1) F.length).flatMap encodeFixed32 ++
    [UInt8.ofNat kFilterBaseLg])

theorem oneFilter_eq (F : Bytes) (m : ℕ) :
    oneFilter F m = filterBlock (F :: List.replicate m []) := by
  have hflat : (F :: List.replicate m ([] : Bytes)).flatten = F := by simp
  have hstarts : starts (F :: List.replicate m []) = 0 :: List.replicate (m + 1) F.length := by
    rw [starts, List.range_succ_eq_map, List.map_cons, List.map_map]
    refine congrArg (0 :: ·) (List.eq_replicate_iff.2 ⟨by simp, ?_⟩)
    refine List.forall_mem_map.2 ?_
    intro i _
    simp
  rw [oneFilter, filterBlock, hflat, hstarts]

/-- Below `kFilterBase` the filter itself answers. -/
theorem keyMayMatch_first (hF : F.length < 2 ^ 32) {blockOffset : ℕ}
    (hoff : blockOffset < kFilterBase) (key : Bytes) :
    (make (oneFilter F m)).keyMayMatch blockOffset key = .ok (KoishiDB.keyMayMatch key F) := by
  rw [oneFilter_eq]
  refine keyMayMatch_filterBlock (by simpa using hF) ?_ key
  rw [Nat.div_eq_of_lt hoff]
  rfl

/-- The filters behind it accept nothing. -/
theorem keyMayMatch_empty (hF : F.length < 2 ^ 32) {blockOffset : ℕ}
    (hoff : kFilterBase ≤ blockOffset) (hm : blockOffset / kFilterBase ≤ m) (key : Bytes) :
    (make (oneFilter F m)).keyMayMatch blockOffset key = .ok false := by
  obtain ⟨i, hi⟩ : ∃ i, blockOffset / kFilterBase = i + 1 :=
    Nat.exists_eq_succ_of_ne_zero (Nat.div_pos hoff (by decide)).ne'
  rw [oneFilter_eq]
  refine keyMayMatch_filterBlock (F := []) (by simpa using hF) ?_ key
  rw [hi, List.getElem?_cons_succ, List.getElem?_replicate, if_pos (by omega)]

end FilterBlockReader

/-! ### The block of a table -/

namespace FilterBlockBuilder

/-- The first and the last position of each key that is waiting. -/
def cuts (f : FilterBlockBuilder) : List (ℕ × ℕ) :=
  f.start.zip (f.start.tail ++ [u32 f.keys.length])

/-- What is cut out of the keys between two positions. -/
def cutOut (keys : Bytes) (p : ℕ × ℕ) : Bytes := (keys.drop p.1).take (u32 (p.2 + 2 ^ 32 - p.1))

theorem tmpKeys_eq (f : FilterBlockBuilder) : f.tmpKeys = f.cuts.map (cutOut f.keys) := rfl

theorem cutOut_eq {keys : Bytes} {p : ℕ × ℕ} (hle : p.1 ≤ p.2) (hlt : p.2 < 2 ^ 32) :
    cutOut keys p = (keys.drop p.1).take (p.2 - p.1) := by
  have hsub : u32 (p.2 + 2 ^ 32 - p.1) = p.2 - p.1 := by
    unfold u32
    omega
  rw [cutOut, hsub]

theorem zip_tail_append (s : List ℕ) (a b : ℕ) :
    (s ++ [a]).zip ((s ++ [a]).tail ++ [b]) = s.zip (s.tail ++ [a]) ++ [(a, b)] := by
  cases s with
  | nil => rfl
  | cons x s =>
    have hlen : (x :: s).length = (s ++ [a]).length := by simp
    exact List.zip_append hlen

theorem cuts_addKey (f : FilterBlockBuilder) (key : Bytes) :
    (f.addKey key).cuts = f.cuts ++ [(u32 f.keys.length, u32 (f.keys ++ key).length)] :=
  zip_tail_append _ _ _

/-- What waits in a builder, as long as the positions have 32 bits: the keys, one behind the
other, and each of them between its two positions. -/
structure Waiting (f : FilterBlockBuilder) (keys : List Bytes) : Prop where
  keys_eq : f.keys = keys.flatten
  cuts_le : ∀ p ∈ f.cuts, p.1 ≤ p.2 ∧ p.2 ≤ f.keys.length
  tmpKeys : f.tmpKeys = keys

theorem waiting_nil (offsets : List ℕ) (result : Bytes) : Waiting ⟨[], [], offsets, result⟩ [] :=
  ⟨rfl, by simp [cuts], rfl⟩

theorem Waiting.addKey {f : FilterBlockBuilder} {keys : List Bytes} (h : Waiting f keys)
    {key : Bytes} (hlt : (keys ++ [key]).flatten.length < 2 ^ 32) :
    Waiting (f.addKey key) (keys ++ [key]) := by
  have hkeys : f.keys ++ key = (keys ++ [key]).flatten := by simp [h.keys_eq]
  have hlen : (f.keys ++ key).length < 2 ^ 32 := by rw [hkeys]; exact hlt
  rw [List.length_append] at hlen
  have hcuts : (f.addKey key).cuts =
      f.cuts ++ [(f.keys.length, f.keys.length + key.length)] := by
    rw [cuts_addKey, u32_of_lt (by omega), List.length_append, u32_of_lt hlen]
  refine ⟨hkeys, ?_, ?_⟩
  · intro p hp
    change _ ∧ p.2 ≤ (f.keys ++ key).length
    rw [List.length_append]
    rw [hcuts, List.mem_append, List.mem_singleton] at hp
    rcases hp with hp | rfl
    · have := h.cuts_le p hp
      omega
    · exact ⟨Nat.le_add_right _ _, le_rfl⟩
  · -- the keys that were there are cut out of the longer string as before
    have hold : f.cuts.map (cutOut (f.keys ++ key)) = f.cuts.map (cutOut f.keys) := by
      apply List.map_congr_left
      intro p hp
      obtain ⟨hle, hp⟩ := h.cuts_le p hp
      rw [cutOut_eq hle (by omega), cutOut_eq hle (by omega),
        List.drop_append_of_le_length (by omega),
        List.take_append_of_le_length (by rw [List.length_drop]; omega)]
    have hnew : cutOut (f.keys ++ key) (f.keys.length, f.keys.length + key.length) = key := by
      rw [cutOut_eq (Nat.le_add_right _ _) hlen, List.drop_left' rfl, Nat.add_sub_cancel_left,
        List.take_length]
    have hkeys' : (f.addKey key).keys = f.keys ++ key := rfl
    rw [tmpKeys_eq, hcuts, hkeys', List.map_append, hold, ← tmpKeys_eq, h.tmpKeys,
      List.map_singleton, hnew]

theorem waiting_ofKeys {keys : List Bytes} (hlt : keys.flatten.length < 2 ^ 32) :
    Waiting (ofKeys keys) keys := by
  induction keys using List.reverseRecOn with
  | nil => exact waiting_nil [] []
  | append_singleton keys key ih =>
    rw [ofKeys_append]
    refine (ih ?_).addKey hlt
    rw [List.flatten_append, List.length_append] at hlt
    omega

/-- Empty filters behind a builder that nothing is waiting in. -/
theorem generateFilters_empty (F : Bytes) (offsets : List ℕ) (n : ℕ) :
    generateFilters n ⟨[], [], offsets, F⟩ =
      .ok ⟨[], [], offsets ++ List.replicate n (u32 F.length), F⟩ := by
  induction n generalizing offsets with
  | zero => simp [generateFilters]
  | succ n ih =>
    simp only [generateFilters, generateFilter, List.length_nil, ↓reduceIte, Exec.ok_bind, ih,
      List.append_assoc, List.replicate_succ, List.singleton_append]

/-- **The filters of a table**: the first has all the keys, the others are empty. -/
theorem generateFilters_ofKeys {keys : List Bytes} (hne : keys ≠ [])
    (hfew : keys.length * 10 < 2 ^ 31) :
    ∃ F : Bytes, F.length < 2 ^ 32 ∧
      (keys.flatten.length < 2 ^ 32 → ∀ key ∈ keys, KoishiDB.keyMayMatch key F = true) ∧
      (ofKeys keys).generateFilter = .ok ⟨[], [], [0], F⟩ ∧
      ∀ m, generateFilters (m + 1) (ofKeys keys) =
        .ok ⟨[], [], 0 :: List.replicate m F.length, F⟩ := by
  obtain ⟨hstart, hoffsets, hresult⟩ := ofKeys_frame keys
  have hfew' : (ofKeys keys).tmpKeys.length * 10 < 2 ^ 31 := by
    rwa [length_tmpKeys, hstart]
  obtain ⟨F, hF, hlen, hmatch⟩ := createFilter_eq hfew' []
  have hF32 : F.length < 2 ^ 32 := by
    have := filterBytes_le ((ofKeys keys).tmpKeys.length * 10)
    omega
  have hpos : (ofKeys keys).start.length ≠ 0 := by
    rw [hstart]
    exact fun h => hne (List.length_eq_zero_iff.1 h)
  have hfirst : (ofKeys keys).generateFilter = .ok ⟨[], [], [0], F⟩ := by
    simp only [generateFilter, if_neg hpos, hresult, hF, Exec.ok_bind, Exec.pure_eq, hoffsets,
      List.nil_append, List.length_nil]
    rfl
  refine ⟨F, hF32, fun hlt key hkey => hmatch key ?_, hfirst, ?_⟩
  · rwa [(waiting_ofKeys hlt).tmpKeys]
  · intro m
    rw [generateFilters, hfirst, Exec.ok_bind, generateFilters_empty, u32_of_lt hF32]
    rfl

/-- **The filter block of a table**, finished after a data block was started at an offset. -/
theorem finish_startBlock {keys : List Bytes} (hne : keys ≠ []) (hfew : keys.length * 10 < 2 ^ 31)
    {blockOffset : ℕ} {f : FilterBlockBuilder} (h : (ofKeys keys).startBlock blockOffset = .ok f) :
    ∃ F : Bytes, F.length < 2 ^ 32 ∧
      (keys.flatten.length < 2 ^ 32 → ∀ key ∈ keys, KoishiDB.keyMayMatch key F = true) ∧
      ∃ f', f.finish = .ok (FilterBlockReader.oneFilter F (blockOffset / kFilterBase - 1), f') := by
  obtain ⟨F, hF, hmatch, hfirst, hall⟩ := generateFilters_ofKeys hne hfew
  have hcontents : ∀ m, contents ⟨[], [], 0 :: List.replicate m F.length, F⟩ =
      FilterBlockReader.oneFilter F m := by
    intro m
    rw [contents, FilterBlockReader.oneFilter, List.replicate_succ', ← List.cons_append,
      List.flatMap_append, u32_of_lt hF]
    simp
  obtain ⟨hstart, hoffsets, -⟩ := ofKeys_frame keys
  obtain ⟨_, -, h⟩ := Exec.bind_eq_ok.1 h
  rw [hoffsets, List.length_nil, Nat.sub_zero] at h
  refine ⟨F, hF, hmatch, ?_⟩
  cases hq : blockOffset / kFilterBase with
  | zero =>
    -- the keys are still waiting
    rw [hq] at h
    cases h
    have hkeyed : (ofKeys keys).start.isEmpty = false := by
      rw [List.isEmpty_eq_false_iff]
      intro h0
      rw [h0] at hstart
      exact hne (List.length_eq_zero_iff.1 hstart.symm)
    have hlast : contents ⟨[], [], [0], F⟩ = FilterBlockReader.oneFilter F 0 := hcontents 0
    refine ⟨⟨[], [], [0], FilterBlockReader.oneFilter F 0⟩, ?_⟩
    simp only [finish, generateLast, hkeyed, Bool.false_eq_true, ↓reduceIte, hfirst, Exec.ok_bind,
      Exec.pure_eq, hlast, Nat.zero_sub]
  | succ m =>
    rw [hq, hall m] at h
    cases h
    refine ⟨⟨[], [], 0 :: List.replicate m F.length, FilterBlockReader.oneFilter F m⟩, ?_⟩
    simp only [finish, generateLast, List.isEmpty_nil, ↓reduceIte, Exec.ok_bind, Exec.pure_eq,
      Nat.add_sub_cancel, hcontents]

end FilterBlockBuilder

end KoishiDB
