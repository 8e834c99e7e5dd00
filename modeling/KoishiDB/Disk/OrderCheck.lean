import KoishiDB.Disk.Lookup

/-!
# The order assertions of the builders

`TableBuilder::Add` compares a new key with `r->last_key.c_str()`, the last key cut at its first
zero byte; `BlockBuilder::Add` compares with the whole last key.  An internal key ends with eight
bytes that hold its sequence number, and a sequence number below `2 ^ 48` has zero bytes, so for
short user keys what is left of the last key has fewer than the eight bytes that
`ExtractUserKey` takes off.  The size of its user key then wraps around, and `memcmp` runs over the
whole last key and its terminator: the new user key has to be larger than these bytes, which it is
unless it is a prefix of them or goes on behind the user key with bytes like those of the tag.

* `compare_ofCStr_iff` : when the cut last key still compares as smaller.
* `addsCompareWell_iff` : when every comparison of the assertions is as it should be.
-/

namespace KoishiDB

/-! ### Keys that are cut -/

theorem lt_append_of_ne_nil (s : Bytes) {t : Bytes} (ht : t ≠ []) : s < s ++ t := by
  induction s with
  | nil =>
    obtain ⟨x, t, rfl⟩ := List.exists_cons_of_ne_nil ht
    exact List.nil_lt_cons x t
  | cons x s ih => exact List.cons_lt_cons_iff.2 (.inr ⟨rfl, ih⟩)

/-- A key that is cut but keeps eight bytes has a smaller user key. -/
theorem rank_lt_append {p t : Bytes} (h : 8 ≤ p.length) (ht : t ≠ []) :
    internalKeyRank p < internalKeyRank (p ++ t) := by
  have hlen : (p ++ t).length - 8 = (p.length - 8) + t.length := by
    rw [List.length_append]
    omega
  have hsplit : (p ++ t).take ((p ++ t).length - 8) =
      p.take (p.length - 8) ++ ((p ++ t).drop (p.length - 8)).take t.length := by
    rw [hlen, List.take_add, List.take_append_of_le_length (by omega)]
  have hrest : ((p ++ t).drop (p.length - 8)).take t.length ≠ [] := by
    have hpos := List.length_pos_iff.2 ht
    apply List.ne_nil_of_length_pos
    rw [List.length_take, List.length_drop, List.length_append]
    omega
  rw [internalKeyRank_of_le h, internalKeyRank_of_le (by rw [List.length_append]; omega)]
  refine keyRank_lt.2 (.inl ?_)
  rw [hsplit]
  exact lt_append_of_ne_nil _ hrest

theorem rank_cString_le {k : Bytes} (h : 8 ≤ (cString k).length) :
    internalKeyRank (cString k) ≤ internalKeyRank k := by
  obtain ⟨t, ht⟩ := cString_isPrefix k
  by_cases hne : t = []
  · rw [hne, List.append_nil] at ht
    rw [ht]
  · have hlt := rank_lt_append h hne
    rw [ht] at hlt
    exact hlt.le

/-- What is left of a key with its first eight bytes is taken apart like any key. -/
theorem extractUserKey_ofCStr {k : Bytes} (h : 8 ≤ (cString k).length) :
    extractUserKey (.ofCStr k) = extractUserKey (cString k) := by
  obtain ⟨rest, hrest⟩ := cString_isPrefix k
  have hcut : Slice.ofCStr k = ⟨cString k ++ (rest ++ [0]), (cString k).length⟩ := by
    rw [← List.append_assoc, hrest, Slice.ofCStr]
  rw [hcut, extractUserKey_append h]

/-- The new user key passes the assertion behind the last key: the last key keeps its first eight
bytes, or the new user key is above its bytes and the terminator where they differ first. -/
def PassesCheck (lastKey userKey : Bytes) : Prop :=
  0 ∉ lastKey.take 8 ∨ BelowAtDifference (lastKey ++ [0]) userKey

instance (lastKey userKey : Bytes) : Decidable (PassesCheck lastKey userKey) :=
  inferInstanceAs (Decidable (_ ∨ _))

section Cut

variable {k key : Bytes} (hk : 8 ≤ k.length) (hkey : 8 ≤ key.length)
include hk hkey

/-- A last key that keeps eight bytes compares as smaller. -/
theorem compare_ofCStr (h : internalKeyCompare key k = .ok 1) (hzero : 0 ∉ k.take 8) :
    internalKeyCompare key (.ofCStr k) = .ok 1 := by
  have hlen := (le_length_cString_iff hk).2 hzero
  have hcut : internalKeyCompare key (.ofCStr k) = internalKeyCompare key (cString k) := by
    rw [internalKeyCompare, internalKeyCompare, extractUserKey_ofCStr hlen]
  rw [internalKeyCompare_eq hkey hk, Except.ok.injEq, threeWay_eq_one] at h
  rw [hcut, internalKeyCompare_eq hkey hlen, Except.ok.injEq, threeWay_eq_one]
  exact (rank_cString_le hlen).trans_lt h

omit hk in
/-- A shorter one is compared byte by byte, as far as the new user key goes. -/
theorem compare_ofCStr_of_cut (hlt : key.length < 2 ^ 63) (hcut : (cString k).length < 8) :
    internalKeyCompare key (.ofCStr k) = .ok 1 ↔
      BelowAtDifference (k ++ [0]) (key.take (key.length - 8)) := by
  have hu : (key.take (key.length - 8)).length < (cString k).length + 2 ^ 64 - 8 := by
    rw [List.length_take_of_le (Nat.sub_le _ _)]
    omega
  have hextract : extractUserKey (.ofCStr k) =
      .ok (⟨k ++ [0], (cString k).length + 2 ^ 64 - 8⟩, none) := extractUserKey_of_lt hcut
  rw [internalKeyCompare, extractUserKey_of_le hkey, hextract]
  have hcompare := @Slice.compare_eq_one_iff_of_lt _
    ⟨k ++ [0], (cString k).length + 2 ^ 64 - 8⟩ hu
  simp only [← hcompare, Exec.ok_bind]
  constructor
  · intro h
    obtain ⟨r, hr, h⟩ := Exec.bind_eq_ok.1 h
    split_ifs at h
    rwa [← Except.ok.inj h]
  · intro h
    rw [h]
    rfl

/-- **When the cut last key passes the assertion.** -/
theorem compare_ofCStr_iff (hlt : key.length < 2 ^ 63) (h : internalKeyCompare key k = .ok 1) :
    internalKeyCompare key (.ofCStr k) = .ok 1 ↔ PassesCheck k (key.take (key.length - 8)) := by
  by_cases hzero : 0 ∈ k.take 8
  · have hcut : (cString k).length < 8 :=
      not_le.1 fun hle => (le_length_cString_iff hk).1 hle hzero
    rw [compare_ofCStr_of_cut hkey hlt hcut, PassesCheck, or_iff_right (not_not.2 hzero)]
  · exact iff_of_true (compare_ofCStr hk hkey h hzero) (.inl hzero)

end Cut

/-! ### The comparisons that `Add` makes -/

namespace TableBuilder

variable {os : ℕ → WriteResult} {b b' : TableBuilder} {k key value : Bytes}
  {l : List (Bytes × Bytes)}

/-- The pairs of slices that the order assertions of an `Add` call compare: that of
`TableBuilder::Add`, that of the index block for a pending entry, and that of the data block. -/
def orderComparisons (b : TableBuilder) (key : Bytes) : List (Slice × Slice) :=
  (if b.lastKey = [] then [] else [(.ofBytes key, .ofCStr b.lastKey)]) ++
    (if b.pendingIndexBlock = true ∧ b.dataBlock.empty = true ∧ b.indexBlock.lastKey ≠ [] then
      [(.ofBytes b.lastKey, .ofBytes b.indexBlock.lastKey)] else []) ++
    (if b.dataBlock.lastKey = [] then [] else [(.ofBytes key, .ofBytes b.dataBlock.lastKey)])

/-- The comparison is given slices of at least eight bytes and yields 1. -/
def ComparesWell (p : Slice × Slice) : Prop :=
  8 ≤ p.1.size ∧ 8 ≤ p.2.size ∧ internalKeyCompare p.1 p.2 = .ok 1

/-- So does every comparison of the order assertions in the `Add` calls for `l`, up to the first
call that faults. -/
def AddsCompareWell : TableBuilder → List (Bytes × Bytes) → Prop
  | _, [] => True
  | b, e :: l => (∀ p ∈ b.orderComparisons e.1, ComparesWell p) ∧
      ∀ b', b.add internalKeyCompare e.1 e.2 = .ok b' → b'.AddsCompareWell l

/-- Both builders have `k` as their last key. -/
structure LastKey (os : ℕ → WriteResult) (k : Bytes) (b : TableBuilder) : Prop where
  adding : Adding os b
  table : b.lastKey = k
  block : b.dataBlock.lastKey = k

theorem lastKey_make (os : ℕ → WriteResult) (name : String) :
    LastKey os [] (make (.make os name)) :=
  ⟨adding_make os name, rfl, rfl⟩

theorem LastKey.add {cmp : Comparator} (hb : LastKey os k b) (h : b.add cmp key value = .ok b') :
    LastKey os key b' := by
  have hadding := add_adding hb.adding h
  obtain ⟨-, -, -, -, ⟨-, hfl⟩ | ⟨-, rfl⟩⟩ := add_cases hb.adding h
  · obtain ⟨_, _, _, _, _, _, rfl⟩ := flush_frame hfl
    exact ⟨hadding, rfl, rfl⟩
  · exact ⟨hadding, rfl, rfl⟩

/-- An index entry is never added while the data block is empty, so two comparisons remain. -/
theorem LastKey.mem_orderComparisons (hb : LastKey os k b) {p : Slice × Slice} :
    p ∈ b.orderComparisons key ↔
      k ≠ [] ∧ (p = (.ofBytes key, .ofCStr k) ∨ p = (.ofBytes key, .ofBytes k)) := by
  have hpending : ¬ (b.pendingIndexBlock = true ∧ b.dataBlock.empty = true ∧
      b.indexBlock.lastKey ≠ []) := by
    rintro ⟨hp, he, -⟩
    exact hb.adding.pending hp (by
      simpa [BlockBuilder.empty, BlockBuilder.estimatedSize] using he)
  rw [orderComparisons, hb.table, hb.block, if_neg hpending, List.append_nil]
  by_cases hk : k = []
  · simp [hk]
  · simp [hk]

/-- The key `key` may be added behind the last key `k`. -/
def Follows (k key : Bytes) : Prop :=
  k = [] ∨ 8 ≤ k.length ∧ 8 ≤ key.length ∧ internalKeyCompare key k = .ok 1

/-- The comparisons of one `Add` call. -/
theorem LastKey.comparesWell_iff (hb : LastKey os k b) (hord : Follows k key) :
    (∀ p ∈ b.orderComparisons key, ComparesWell p) ↔ 0 ∉ k.take 8 := by
  by_cases h0 : k = []
  · have : ∀ p, p ∉ b.orderComparisons key := fun p hp => (hb.mem_orderComparisons.1 hp).1 h0
    simp [this, h0]
  · obtain ⟨hk, hkey, hord⟩ := hord.resolve_left h0
    constructor
    · intro h
      exact (le_length_cString_iff hk).1 (h _ (hb.mem_orderComparisons.2 ⟨h0, .inl rfl⟩)).2.1
    · intro hzero p hp
      obtain ⟨-, rfl | rfl⟩ := hb.mem_orderComparisons.1 hp
      · exact ⟨hkey, (le_length_cString_iff hk).2 hzero, compare_ofCStr hk hkey hord hzero⟩
      · exact ⟨hkey, hk, hord⟩

/-- Without zero bytes at the start of the keys, all `Add` calls compare well. -/
theorem LastKey.addsCompareWell (hb : LastKey os k b)
    (hchain : (k :: l.map Prod.fst).IsChain Follows)
    (hzero : ∀ x ∈ (k :: l.map Prod.fst).dropLast, 0 ∉ x.take 8) : b.AddsCompareWell l := by
  induction l generalizing k b with
  | nil => trivial
  | cons e l ih =>
    rw [List.map_cons, List.isChain_cons_cons] at hchain
    rw [List.map_cons, List.dropLast_cons_cons, List.forall_mem_cons] at hzero
    refine ⟨(hb.comparesWell_iff hchain.1).2 hzero.1, ?_⟩
    intro b' hadd
    exact ih (hb.add hadd) hchain.2 hzero.2

/-! ### A build whose writes all fail -/

/-- A file whose write calls all fail cannot take more than its buffer. -/
theorem append_failing {f : WritableFile} (hos : ∀ i, (f.os i).failed = true) {content : Bytes}
    (hlen : kWritableFileBuffer < content.length) : (f.append content).1 ≠ .OK := by
  have hle := f.buf_le
  have hrest : (content.drop (f.copySize content)).length ≠ 0 := by
    rw [List.length_drop, WritableFile.copySize]
    omega
  have hbuf : (f.fill content).buf ≠ [] := by
    apply List.ne_nil_of_length_pos
    rw [WritableFile.fill, List.length_append, List.length_take, WritableFile.copySize]
    unfold kWritableFileBuffer at *
    omega
  obtain ⟨errno, text, hfail⟩ := WriteResult.failed_eq_true.1 (hos f.calls)
  have hflush : (f.fill content).flush.1 = WritableFile.posixError f.filename errno text := by
    obtain ⟨x, xs, hx⟩ := List.exists_cons_of_ne_nil hbuf
    have hos' : ((f.fill content).os (f.fill content).calls).settled = .error errno text := hfail
    simp only [WritableFile.flush, WritableFile.writeUnbuffered, hx, List.length_cons,
      WritableFile.writeLoop, hos']
    rfl
  have hne := WritableFile.posixError_ne_ok f.filename errno text
  simp only [WritableFile.append, if_neg hrest]
  cases hfl : (f.fill content).flush with
  | mk st f' =>
    rw [hfl] at hflush
    obtain rfl : st = _ := hflush
    have hok : (WritableFile.posixError f.filename errno text).ok = false := by
      rw [← Bool.not_eq_true, Status.ok_eq_true_iff]
      exact hne
    simp only [hok, Bool.not_false, ↓reduceIte]
    exact hne

/-- `Flush` of a data block that is larger than the buffer leaves no block pending. -/
theorem flush_failing (hos : ∀ i, (b.file.os i).failed = true) (hcl : b.closed = false)
    (hlen : kWritableFileBuffer < b.dataBlock.rep.length) :
    ∃ st f, b.flush = .ok { b with status := st, file := f } := by
  have he : b.dataBlock.empty = false := by
    have : b.dataBlock.rep ≠ [] := List.ne_nil_of_length_pos (by omega)
    simpa [BlockBuilder.empty, BlockBuilder.estimatedSize] using this
  have hne := append_failing hos hlen
  cases ha : b.file.append b.dataBlock.rep with
  | mk st f =>
    rw [ha] at hne
    have hok : st.ok = false := by
      rw [← Bool.not_eq_true, Status.ok_eq_true_iff]
      exact hne
    refine ⟨st, f, ?_⟩
    simp [flush, hcl, Exec.require, he, writeBlock, BlockBuilder.finish, ha, hok]

/-- An `Add` call in order, with a value that does not fit the buffer, goes through. -/
theorem add_failing (hos : ∀ i, (os i).failed = true) (hb : LastKey os k b) (hcl : b.closed = false)
    (hpend : b.pendingIndexBlock = false) (hlen : kWritableFileBuffer < value.length)
    (hcmp : ∀ p ∈ b.orderComparisons key, ComparesWell p) :
    ∃ b', b.add internalKeyCompare key value = .ok b' ∧ b'.closed = false ∧
      b'.pendingIndexBlock = false := by
  have h1 : requireAfter internalKeyCompare key b.lastKey (.ofCStr b.lastKey)
      "r->last_key.empty() || r->opt->cmp->Compare(key, r->last_key.c_str()) == 1" = .ok () := by
    rw [requireAfter_eq_ok, hb.table]
    by_cases h0 : k = []
    · exact .inl h0
    · exact .inr (hcmp _ (hb.mem_orderComparisons.2 ⟨h0, .inl rfl⟩)).2.2
  have h2 : requireAfter internalKeyCompare key b.dataBlock.lastKey b.dataBlock.lastKey
      "last_key.empty() || opt_->cmp->Compare(key, last_key) == 1" = .ok () := by
    rw [requireAfter_eq_ok, hb.block]
    by_cases h0 : k = []
    · exact .inl h0
    · exact .inr (hcmp _ (hb.mem_orderComparisons.2 ⟨h0, .inr rfl⟩)).2.2
  have hrep : kWritableFileBuffer < (b.grown key value).rep.length := by
    rw [grown, List.length_append, length_encodeEntry]
    dsimp only
    omega
  have hfull : kBlockSize ≤ (b.grown key value).rep.length := by
    unfold kWritableFileBuffer at hrep
    unfold kBlockSize
    omega
  have hpush : ∀ i, ((b.pushEntry (b.grown key value) key).file.os i).failed = true := by
    intro i
    change (b.file.os i).failed = true
    rw [hb.adding.os_eq]
    exact hos i
  obtain ⟨st, f, hfl⟩ := flush_failing (b := b.pushEntry (b.grown key value) key) hpush hcl hrep
  have hdata : b.dataBlock.add internalKeyCompare key value = .ok (b.grown key value) := by
    simp only [BlockBuilder.add, h2, Exec.ok_bind, Exec.pure_eq, grown]
  have hsize : (b.pushEntry (b.grown key value) key).dataBlock.estimatedSize ≥ kBlockSize := hfull
  refine ⟨{ b.pushEntry (b.grown key value) key with status := st, file := f }, ?_, hcl, hpend⟩
  simp only [add, hcl, Exec.require, ↓reduceIte, Exec.ok_bind, h1, addPending, hpend,
    Bool.false_eq_true, hdata, if_pos hsize, hfl]

/-- If all `Add` calls with such values compare well, no last key starts with a zero byte. -/
theorem LastKey.zero_notMem (hos : ∀ i, (os i).failed = true) (hb : LastKey os k b)
    (hcl : b.closed = false) (hpend : b.pendingIndexBlock = false)
    (hlen : ∀ e ∈ l, kWritableFileBuffer < e.2.length)
    (hchain : (k :: l.map Prod.fst).IsChain Follows) (h : b.AddsCompareWell l) :
    ∀ x ∈ (k :: l.map Prod.fst).dropLast, 0 ∉ x.take 8 := by
  induction l generalizing k b with
  | nil => simp
  | cons e l ih =>
    rw [List.map_cons, List.isChain_cons_cons] at hchain
    rw [List.forall_mem_cons] at hlen
    obtain ⟨hcmp, hrest⟩ := h
    obtain ⟨b', hadd, hcl', hpend'⟩ := add_failing hos hb hcl hpend hlen.1 hcmp
    rw [List.map_cons, List.dropLast_cons_cons, List.forall_mem_cons]
    exact ⟨(hb.comparesWell_iff hchain.1).1 hcmp,
      ih (hb.add hadd) hcl' hpend' hlen.2 hchain.2 (hrest b' hadd)⟩

/-! ### Which keys pass the assertions -/

/-- Keys that increase strictly may be added one after the other. -/
theorem isChain_follows {ks : List Bytes} (hlen : ∀ k ∈ ks, 8 ≤ k.length)
    (hsorted : ks.IsChain fun k k' : Bytes => internalKeyCompare k k' = .ok (-1)) :
    ([] :: ks).IsChain Follows := by
  have htail : ks.IsChain Follows := by
    refine hsorted.imp_of_mem_imp ?_
    intro k k' hk hk' hlt
    exact .inr ⟨hlen k hk, hlen k' hk', compare_eq_one_of_lt (hlen k hk) (hlen k' hk') hlt⟩
  cases ks with
  | nil => exact .singleton _
  | cons k ks => exact .cons_cons (.inl rfl) htail

/-- **Which keys pass the order assertions.**  For every list of keys of at least eight bytes that
increases strictly: whatever the values and whatever the write calls do, every comparison that the
order assertions make is given slices of at least eight bytes and yields 1, if and only if no key
but the last has a zero byte among its first eight bytes. -/
theorem addsCompareWell_iff {ks : List Bytes} (hlen : ∀ k ∈ ks, 8 ≤ k.length)
    (hsorted : ks.IsChain fun k k' : Bytes => internalKeyCompare k k' = .ok (-1)) :
    (∀ (l : List (Bytes × Bytes)) (os : ℕ → WriteResult) (name : String), l.map Prod.fst = ks →
      (make (.make os name)).AddsCompareWell l) ↔ ∀ k ∈ ks.dropLast, 0 ∉ k.take 8 := by
  have hchain := isChain_follows hlen hsorted
  have hdrop : (∀ x ∈ ([] :: ks).dropLast, 0 ∉ x.take 8) ↔ ∀ k ∈ ks.dropLast, 0 ∉ k.take 8 := by
    cases ks with
    | nil => simp
    | cons k ks => simp
  rw [← hdrop]
  constructor
  · intro h
    -- with values that do not fit the buffer and no write accepted, every `Add` call is reached
    have hkeys : (ks.map fun k => (k, List.replicate (kWritableFileBuffer + 1) (0 : UInt8))).map
        Prod.fst = ks := by
      simp [Function.comp_def]
    have hrun := h _ (fun _ => .error 5 "Input/output error") "sstable_1" hkeys
    have hzero := (lastKey_make _ _).zero_notMem (fun _ => rfl) rfl rfl
      (List.forall_mem_map.2 fun k _ => by simp) (by rw [hkeys]; exact hchain) hrun
    rwa [hkeys] at hzero
  · rintro hzero l os name rfl
    exact (lastKey_make os name).addsCompareWell hchain hzero

/-- The keys `aaaaaaaa` and `b`: only the second has a zero byte among its first eight. -/
theorem addsCompareWell_long_key : (make (.make (fun _ => .accept 100) "sstable_1")).AddsCompareWell
    [(createInternalKey (List.replicate 8 97) 1 .kTypeValue, [49]),
      (createInternalKey [98] 2 .kTypeValue, [50])] := by
  have hlen : ∀ k ∈ [createInternalKey (List.replicate 8 97) 1 .kTypeValue,
    createInternalKey [98] 2 .kTypeValue], 8 ≤ k.length := by decide
  exact (addsCompareWell_iff hlen (by decide)).2 (by decide) _ _ _ rfl

/-- The keys `a` and `b`: of the first one only three bytes are left to compare with. -/
theorem add_compares_cut_key :
    ¬ ∀ (ks : List Bytes) (l : List (Bytes × Bytes)) (os : ℕ → WriteResult) (name : String),
      (∀ k ∈ ks, 8 ≤ k.length) →
        (ks.IsChain fun k k' : Bytes => internalKeyCompare k k' = .ok (-1)) → l.map Prod.fst = ks →
          (make (.make os name)).AddsCompareWell l := by
  intro h
  have hrun := h [createInternalKey [97] 1 .kTypeValue, createInternalKey [98] 2 .kTypeValue]
    [(createInternalKey [97] 1 .kTypeValue, []), (createInternalKey [98] 2 .kTypeValue, [])]
    (fun _ => .accept 100) "sstable_1" (by decide) (by decide) rfl
  have hfirst : ((make (.make (fun _ => .accept 100) "sstable_1")).add internalKeyCompare
      (createInternalKey [97] 1 .kTypeValue) []).map (fun _ => ()) = .ok () := by decide +kernel
  obtain ⟨b, hb, -⟩ := Exec.exists_of_map hfirst
  have hsecond := (hrun.2 b hb).1
  have hfollows : Follows (createInternalKey [97] 1 .kTypeValue)
      (createInternalKey [98] 2 .kTypeValue) := .inr (by decide)
  exact absurd ((((lastKey_make _ _).add hb).comparesWell_iff hfollows).1 hsecond) (by decide)

end TableBuilder

end KoishiDB
