import KoishiDB.Disk.Builder

/-!
# Exact lookups in a table

What `InternalGet` answers on a table that `TableBuilder` built.  The search in the data block is
exact: it finds the entry whose key compares equal to the key searched for.  In front of it stands
the Bloom filter, which is given the whole filter block as a zero-terminated string, so that the
bits behind the first zero byte and the number of probes are lost (`keyMayMatch key (cString
t.filterData)`): keys that were added are turned away.

The offset of an iterator has 32 bits.  A search for a key behind all keys of a table comes to the
end of a block only if the block is shorter than `2 ^ 32` bytes (`SearchEnds`); every other search
stops before.

* `internalGet_eq` : what `InternalGet` answers.
* `internalGet_exact_iff` : when the answer is right, for any key.
* `internalGet_newest_iff` : when it is right for the key with which `Get` asks for a user key.
-/

namespace KoishiDB

section Ordered

variable {α : Type} [LinearOrder α] {cmp : Comparator} {rank : Bytes → α}
  {l : List (Bytes × Bytes)} {key : Bytes}

/-- A search for the key ends in the table: it stops at an entry, or it can see the ends of the two
blocks, or the filter turns the key away. -/
def SearchEnds (rank : Bytes → α) (t : SSTable) (l : List (Bytes × Bytes)) (key : Bytes) : Prop :=
  (∃ e ∈ l, rank key ≤ rank e.1) ∨
    ((blockImage l).length < 2 ^ 32 ∧ t.indexBlock.length < 2 ^ 32) ∨
    keyMayMatch key (cString t.filterData) = false

/-- The last entry of a sorted list. -/
theorem exists_last (hne : l ≠ []) (hsorted : l.Pairwise fun e e' => rank e.1 < rank e'.1) :
    ∃ x ∈ l, lastKeyOf l = x.1 ∧ ∀ e ∈ l, rank e.1 ≤ rank x.1 := by
  obtain ⟨l, x, rfl⟩ := List.eq_nil_or_concat l |>.resolve_left hne
  rw [List.concat_eq_append] at hsorted ⊢
  refine ⟨x, by simp, lastKeyOf_append l x, ?_⟩
  intro e he
  rcases List.mem_append.1 he with he | he
  · exact ((List.pairwise_append.1 hsorted).2.2 e he x (by simp)).le
  · rw [List.mem_singleton.1 he]

theorem rank_inj (hsorted : l.Pairwise fun e e' => rank e.1 < rank e'.1) {e e' : Bytes × Bytes}
    (he : e ∈ l) (he' : e' ∈ l) (hr : rank e.1 = rank e'.1) : e = e' := by
  have hnodup : (l.map fun e => rank e.1).Nodup := by
    rw [List.Nodup, List.pairwise_map]
    exact hsorted.imp fun h => h.ne
  exact List.inj_on_of_nodup_map hnodup he he' hr

theorem find?_rank_eq_none (h : ∀ e ∈ l, rank e.1 ≠ rank key) :
    (l.find? fun e => rank e.1 = rank key) = none := by
  rw [List.find?_eq_none]
  simpa using h

/-- The first entry of a sorted list that is not in front of the key, if it is at the key, is the
one to find. -/
theorem find?_rank {m b : List (Bytes × Bytes)} {e : Bytes × Bytes}
    (hsorted : (m ++ e :: b).Pairwise fun e e' => rank e.1 < rank e'.1)
    (hm : ∀ y ∈ m, rank y.1 < rank key) (he : rank key ≤ rank e.1) :
    ((m ++ e :: b).find? fun e => rank e.1 = rank key) =
      if rank e.1 = rank key then some e else none := by
  have hfront := find?_rank_eq_none fun y hy => (hm y hy).ne
  rw [List.find?_append, hfront, Option.none_or, List.find?_cons]
  by_cases h0 : rank e.1 = rank key
  · simp [h0]
  · -- what stands behind `e` is larger still
    have hback := find?_rank_eq_none fun y hy => (he.trans_lt
      ((List.pairwise_cons.1 (List.pairwise_append.1 hsorted).2.1).1 y hy)).ne'
    simp [h0, hback]

/-- Behind all keys of the table nothing is found. -/
theorem internalGet_behind {t : TableLayout} (h : t.Stores l)
    (hfits : ∀ e ∈ l, BlockIterator.EntryFits e) (hlast : cmp t.lastKey key = .ok (-1))
    (hall : ∀ e ∈ l, cmp e.1 key = .ok (-1)) (rest : Bytes)
    (hends : ((blockImage l).length < 2 ^ 32 ∧ t.index.length < 2 ^ 32) ∨
      keyMayMatch key (cString t.filter) = false) :
    (t.reader (t.content ++ rest)).internalGet cmp key = .ok none := by
  rcases hends with ⟨himage, hindex⟩ | hfilter
  · have hdata : (BlockIterator.make (blockImage l)).data = blockImage l := rfl
    obtain ⟨data, hseek, -⟩ := BlockIterator.seek_end hdata h.entries hall himage hfits
    rw [internalGet_of_seek h hlast (fun _ => hindex) hseek rest]
    simp
  · simp only [SSTable.internalGet, strlenSlice_reader h, Exec.ok_bind, hfilter, ↓reduceIte,
      Exec.pure_eq]

/-- A search that stops at an entry finds it if its key compares as equal. -/
theorem internalGet_at {t : TableLayout} {m b : List (Bytes × Bytes)} {e : Bytes × Bytes} {c c' : ℤ}
    (h : t.Stores (m ++ e :: b)) (hfits : ∀ y ∈ m ++ [e], BlockIterator.EntryFits y)
    (hlast : cmp t.lastKey key = .ok c') (hc' : c' ≠ -1)
    (hm : ∀ y ∈ m, cmp y.1 key = .ok (-1)) (hstop : cmp e.1 key = .ok c) (hc : c ≠ -1)
    (hlt : (blockImage m).length < 2 ^ 32) (rest : Bytes) :
    (t.reader (t.content ++ rest)).internalGet cmp key =
      .ok (if keyMayMatch key (cString t.filter) = true ∧ c = 0 then some e.2 else none) := by
  have hdata : (BlockIterator.make (blockImage (m ++ e :: b))).data =
      blockImage (m ++ e :: b) := rfl
  obtain ⟨data, hseek, hon⟩ := BlockIterator.seek_stop hdata hm hstop hc hlt hfits
  rw [internalGet_of_seek h hlast (fun h1 => absurd h1 hc') hseek rest, hon.valid, hon.value_eq]
  cases keyMayMatch key (cString t.filter) with
  | false => simp
  | true =>
    by_cases h0 : c = 0
    · simp [h0, Except.map]
    · simp [h0]

/-- **What `InternalGet` answers**: the value under the key, if the filter lets the key through. -/
theorem internalGet_eq {t : TableLayout} (h : t.Stores l) (hlast : t.lastKey = lastKeyOf l)
    (hfits : ∀ e ∈ l, BlockIterator.EntryFits e)
    (hcmp : ∀ e ∈ l, cmp e.1 key = .ok (threeWay (rank e.1) (rank key)))
    (hsorted : l.Pairwise fun e e' => rank e.1 < rank e'.1)
    (hsize : (blockImage l.dropLast).length < 2 ^ 32) (rest : Bytes)
    (hends : SearchEnds rank (t.reader (t.content ++ rest)) l key) :
    (t.reader (t.content ++ rest)).internalGet cmp key =
      .ok (if keyMayMatch key (cString t.filter) then
        (l.find? fun e => rank e.1 = rank key).map Prod.snd else none) := by
  obtain ⟨x, hx, hlastx, hxmax⟩ := exists_last h.entries hsorted
  have hcx := hcmp x hx
  rw [← hlastx, ← hlast] at hcx
  rcases BlockIterator.smaller_or_first fun y hy => ⟨_, hcmp y hy⟩ with
    hall | ⟨m, e, b, c, rfl, hm, hstop, hc⟩
  · -- behind all keys
    have hlt : ∀ y ∈ l, rank y.1 < rank key := fun y hy =>
      threeWay_eq_neg_one.1 (Except.ok.inj ((hcmp y hy).symm.trans (hall y hy)))
    rw [find?_rank_eq_none fun y hy => (hlt y hy).ne, Option.map_none, ite_self]
    refine internalGet_behind h hfits ?_ hall rest (hends.resolve_left ?_)
    · rw [hlast, hlastx]
      exact hall x hx
    · rintro ⟨e, he, hle⟩
      exact absurd (hlt e he) (not_lt.2 hle)
  · -- the search passes the entries in front of the key and stops at the first other one
    obtain rfl := Except.ok.inj (hstop.symm.trans (hcmp e (by simp)))
    have hle : rank key ≤ rank e.1 := not_lt.1 (mt threeWay_eq_neg_one.2 hc)
    have hm' : ∀ y ∈ m, rank y.1 < rank key := fun y hy =>
      threeWay_eq_neg_one.1 (Except.ok.inj ((hcmp y (by simp [hy])).symm.trans (hm y hy)))
    have hback : threeWay (rank t.lastKey) (rank key) ≠ -1 := by
      rw [hlast, hlastx]
      exact fun h1 => absurd (threeWay_eq_neg_one.1 h1) (not_lt.2 (hle.trans (hxmax e (by simp))))
    have hmlt : (blockImage m).length < 2 ^ 32 := by
      refine (length_blockImage_le ?_).trans_lt hsize
      rw [List.dropLast_append_of_ne_nil (by simp)]
      exact List.prefix_append _ _
    have hfits' : ∀ y ∈ m ++ [e], BlockIterator.EntryFits y := fun y hy => hfits y (by
      simp only [List.mem_append, List.mem_cons, List.not_mem_nil, or_false] at hy ⊢
      tauto)
    rw [internalGet_at h hfits' hcx hback hm hstop hc hmlt rest, find?_rank hsorted hm' hle]
    simp only [threeWay_eq_zero]
    cases keyMayMatch key (cString t.filter) with
    | false => simp
    | true => by_cases h0 : rank e.1 = rank key <;> simp [h0]

/-! ### Tables that were built -/

/-- The comparator decides the order of the ranks of the keys in `D`, with the numbers `-1`, `0` and
`1`. -/
def Orders (cmp : Comparator) (D : Bytes → Prop) (rank : Bytes → α) : Prop :=
  ∀ a b, D a → D b → cmp a b = .ok (threeWay (rank a) (rank b))

variable {D : Bytes → Prop} {os : ℕ → WriteResult}

/-- **Lookups in a table that was built and opened**, also when other bytes follow in the file. -/
theorem build_lookup (hcmp : Orders cmp D rank) (hos : ∀ i, (os i).failed = false) {name : String}
    (hne : l ≠ []) (hfits : ∀ e ∈ l, BlockIterator.EntryFits e) (hD : ∀ e ∈ l, D e.1)
    (hsorted : l.Pairwise fun e e' => rank e.1 < rank e'.1) {b : TableBuilder}
    (hb : TableBuilder.build cmp os name l = .ok (.OK, b)) (rest : Bytes) :
    ∃ t, SSTable.openTable (.ofContent (some (b.file.fd ++ rest))) b.fileSize = .ok (some t) ∧
      ∀ key, D key → SearchEnds rank t l key →
        t.internalGet cmp key = .ok (if keyMayMatch key (cString t.filterData) then
          (l.find? fun e => rank e.1 = rank key).map Prod.snd else none) := by
  obtain ⟨b₀, hadd, -⟩ := Exec.bind_eq_ok.1 hb
  have hl := TableBuilder.addAll_buildable hos hfits hadd
  obtain ⟨b', t, hb', hst, -, hfd, hfs, hlast⟩ := TableBuilder.build_stores hos name hne hfits hl
  obtain rfl := (Prod.mk.inj (Except.ok.inj (hb.symm.trans hb'))).2
  refine ⟨t.reader (t.content ++ rest), by rw [hfd, hfs]; exact openTable_spec hst rest, ?_⟩
  intro key hkey hends
  exact internalGet_eq hst hlast hfits (fun e he => hcmp _ _ (hD e he) hkey) hsorted
    (hl.size.trans (by decide)) rest hends

theorem find?_eq_some_of_unique {p : Bytes × Bytes → Bool} {e : Bytes × Bytes} (he : e ∈ l)
    (hp : p e = true) (huniq : ∀ e' ∈ l, p e' = true → e' = e) : l.find? p = some e := by
  cases hf : l.find? p with
  | none => exact absurd hp (List.find?_eq_none.1 hf e he)
  | some e' => rw [huniq e' (List.mem_of_find?_eq_some hf) (List.find?_some hf)]

/-- **When an exact lookup is right.**  For every table that was built from keys in strictly
increasing order, and reopened, and every key a search for which ends in the table: `InternalGet`
returns the stored value if the key was added and nothing otherwise, if and only if the filter,
read as a zero-terminated string, accepts the key in case it was added, and does not accept it in
case another key that compares as equal was. -/
theorem internalGet_exact_iff (hcmp : Orders cmp D rank) (hos : ∀ i, (os i).failed = false)
    {name : String} (hne : l ≠ []) (hfits : ∀ e ∈ l, BlockIterator.EntryFits e)
    (hD : ∀ e ∈ l, D e.1) (hsorted : l.Pairwise fun e e' => rank e.1 < rank e'.1)
    {b : TableBuilder} (hb : TableBuilder.build cmp os name l = .ok (.OK, b)) :
    ∃ t, SSTable.openTable (.ofContent (some b.file.fd)) b.fileSize = .ok (some t) ∧
      ∀ key, D key → SearchEnds rank t l key →
        (t.internalGet cmp key = .ok ((l.find? fun e => e.1 = key).map Prod.snd) ↔
          ∀ e ∈ l, rank e.1 = rank key →
            (e.1 = key ↔ keyMayMatch key (cString t.filterData) = true)) := by
  obtain ⟨t, ht, hget⟩ := build_lookup hcmp hos hne hfits hD hsorted hb []
  rw [List.append_nil] at ht
  refine ⟨t, ht, ?_⟩
  intro key hkey hends
  rw [hget key hkey hends, Except.ok.injEq]
  -- Ranks are distinct, so at most one entry compares as equal to the key.
  by_cases hin : ∃ e ∈ l, rank e.1 = rank key
  · obtain ⟨e, he, hr⟩ := hin
    have huniq : ∀ e' ∈ l, rank e'.1 = rank key → e' = e := fun e' he' hr' =>
      rank_inj hsorted he' he (hr'.trans hr.symm)
    have hfind : (l.find? fun e => rank e.1 = rank key) = some e :=
      find?_eq_some_of_unique he (by simpa using hr) (by simpa using huniq)
    have hall : (∀ e ∈ l, rank e.1 = rank key →
        (e.1 = key ↔ keyMayMatch key (cString t.filterData) = true)) ↔
        (e.1 = key ↔ keyMayMatch key (cString t.filterData) = true) :=
      ⟨fun h => h e he hr, fun h e' he' hr' => huniq e' he' hr' ▸ h⟩
    rw [hall, hfind]
    by_cases hk : e.1 = key
    · have hfind' : (l.find? fun e => e.1 = key) = some e :=
        find?_eq_some_of_unique he (by simpa using hk) fun e' he' hk' =>
          huniq e' he' (by rw [of_decide_eq_true hk'])
      cases keyMayMatch key (cString t.filterData) <;> simp [hfind', hk]
    · have hfind' : (l.find? fun e => e.1 = key) = none := by
        rw [List.find?_eq_none]
        intro e' he' hk'
        exact hk (huniq e' he' (by rw [of_decide_eq_true hk']) ▸ of_decide_eq_true hk')
      cases keyMayMatch key (cString t.filterData) <;> simp [hfind', hk]
  · have hnone := find?_rank_eq_none fun e he hr => hin ⟨e, he, hr⟩
    have hnone' : (l.find? fun e => e.1 = key) = none := by
      rw [List.find?_eq_none]
      exact fun e he hk => hin ⟨e, he, by rw [of_decide_eq_true hk]⟩
    simp only [hnone, hnone', Option.map_none, ite_self, true_iff]
    exact fun e he hr => absurd ⟨e, he, hr⟩ hin

end Ordered

theorem sliceComparator_orders :
    Orders TableBuilder.sliceComparator (fun _ => True) (id : Bytes → Bytes) := by
  intro a b _ _
  rw [TableBuilder.sliceComparator, Slice.compare_ofBytes, sliceCompare_eq_threeWay]
  rfl

/-- The filter block of the table of a list of entries. -/
def builtFilter (l : List (Bytes × Bytes)) : Exec (Option Bytes) := do
  let (_, b) ← TableBuilder.build TableBuilder.sliceComparator BuildEnv.accepting.os "sstable_1" l
  let t ← SSTable.openTable (.ofContent (some b.file.fd)) b.fileSize
  return t.map SSTable.filterData

/-- A table of the keys `a` and `c`: the filter cut at its first zero byte accepts `a`. -/
theorem internalGet_exact_iff_two_keys :
    ∃ b t, TableBuilder.build TableBuilder.sliceComparator BuildEnv.accepting.os "sstable_1"
        [([97], [98]), ([99], [100])] = .ok (.OK, b) ∧
      SSTable.openTable (.ofContent (some b.file.fd)) b.fileSize = .ok (some t) ∧
      t.internalGet TableBuilder.sliceComparator [97] = .ok (some [98]) := by
  have hrun : builtFilter [([97], [98]), ([99], [100])] =
      .ok (some [64, 130, 8, 33, 18, 68, 0, 33, 6, 0, 0, 0, 0, 9, 0, 0, 0, 11]) := by decide +kernel
  obtain ⟨⟨st, b⟩, hb, hrun⟩ := Exec.bind_eq_ok.1 hrun
  obtain ⟨t', ht', hrun⟩ := Exec.bind_eq_ok.1 hrun
  obtain ⟨t'', rfl, hfilter⟩ := Option.map_eq_some_iff.1 (Except.ok.inj hrun)
  have hst : (TableBuilder.build TableBuilder.sliceComparator BuildEnv.accepting.os "sstable_1"
      [([97], [98]), ([99], [100])]).map Prod.fst = .ok .OK := by decide +kernel
  rw [hb] at hst
  obtain rfl : st = .OK := Except.ok.inj hst
  obtain ⟨t, ht, hiff⟩ := internalGet_exact_iff sliceComparator_orders (fun _ => rfl) (by simp)
    (by simp [BlockIterator.EntryFits]) (fun _ _ => trivial) (by decide) hb
  obtain rfl : t = t'' := Option.some.inj (Except.ok.inj (ht.symm.trans ht'))
  refine ⟨b, t, hb, ht, (hiff [97] trivial (.inl ⟨([97], [98]), by simp, le_rfl⟩)).2 ?_⟩
  rw [hfilter]
  decide +kernel

/-- A table of the key `a` alone: the filter starts with a zero byte, and the key is not found. -/
theorem internalGet_misses_added_key :
    ¬ ∀ (os : ℕ → WriteResult) (name : String) (l : List (Bytes × Bytes)) (b : TableBuilder)
      (t : SSTable) (key : Bytes), (∀ i, (os i).failed = false) → l ≠ [] →
        (l.Pairwise fun e e' => e.1 < e'.1) →
        TableBuilder.build TableBuilder.sliceComparator os name l = .ok (.OK, b) →
        SSTable.openTable (.ofContent (some b.file.fd)) b.fileSize = .ok (some t) →
          t.internalGet TableBuilder.sliceComparator key =
            .ok ((l.find? fun e => e.1 = key).map Prod.snd) := by
  intro h
  have hrun : (do
      let (st, b) ← TableBuilder.build TableBuilder.sliceComparator BuildEnv.accepting.os
        "sstable_1" [([97], [98])]
      let t ← SSTable.openTable (.ofContent (some b.file.fd)) b.fileSize
      let t ← t.elim (.error .nullptr) .ok
      let answer ← t.internalGet TableBuilder.sliceComparator [97]
      return (st, answer) : Exec (Status × Option Bytes)) = .ok (.OK, none) := by decide +kernel
  obtain ⟨⟨st, b⟩, hb, hrun⟩ := Exec.bind_eq_ok.1 hrun
  obtain ⟨t', ht', hrun⟩ := Exec.bind_eq_ok.1 hrun
  obtain ⟨t, ht, hrun⟩ := Exec.bind_eq_ok.1 hrun
  obtain ⟨answer, hans, hrun⟩ := Exec.bind_eq_ok.1 hrun
  obtain ⟨rfl, rfl⟩ := Prod.mk.inj (Except.ok.inj hrun)
  cases t' with
  | none => cases ht
  | some t' =>
    obtain rfl : t' = t := Except.ok.inj ht
    have := h _ _ _ b t' [97] (fun _ => rfl) (by simp) (by simp) hb ht'
    exact absurd (Except.ok.inj (hans.symm.trans this)) (by decide)

/-! ### Lookups of user keys -/

/-- The keys that `CreateInternalKey` makes. -/
def IsInternalKey (key : Bytes) : Prop := ∃ u n t, key = createInternalKey u n t

theorem internalKeyCompare_orders : Orders internalKeyCompare IsInternalKey internalKeyRank := by
  rintro a b ⟨u, n, t, rfl⟩ ⟨u', n', t', rfl⟩
  rw [internalKeyCompare_create, internalKeyRank_create, internalKeyRank_create]

theorem Entry.Fits.internalKeyRank {e : Entry} (h : e.Fits) :
    internalKeyRank e.pair.1 = e.rank := by
  change KoishiDB.internalKeyRank (createInternalKey _ _ _) = _
  rw [internalKeyRank_create, storedSeq_of_lt h.2]
  rfl

/-- The answer for a user key: the value of its newest entry, or nothing when it has none. -/
def NewestValue (es : List Entry) (u : Bytes) (answer : Option Bytes) : Prop :=
  (∃ e, Newest es u UINT64_MAX e ∧ answer = some e.value) ∨
    (∀ e ∈ es, e.userKey ≠ u) ∧ answer = none

/-- **When a lookup finds the newest version.**  For every table that `BuildTable` writes from a
memtable, and every user key that is in it or a search for which ends in the table: the lookup that
`Get` makes answers with the newest version of the user key, or nothing when it has none, if and
only if the memtable does not have the user key. -/
theorem internalGet_newest_iff {m : Memtable} {es : List Entry} (hm : Holds m es)
    (hold : ∀ e ∈ es, e.seq < storedSeq UINT64_MAX) {it : MemtableIterator}
    (hit : MemtableIterator.make m = .ok it) {env : BuildEnv} (hs : env.Succeeds) {name : String}
    {r : BuildResult} (h : buildTable env name .make it = .ok r) (old : Option Bytes) :
    ∃ t, SSTable.openTable (.ofContent (r.effect.apply old)) r.fileMeta.fileSize = .ok (some t) ∧
      ∀ u, (∃ e ∈ es, e.userKey = u) ∨
          SearchEnds internalKeyRank t r.added (createInternalKey u UINT64_MAX kTypeSeek) →
        ((∃ answer, t.internalGet internalKeyCompare (createInternalKey u UINT64_MAX kTypeSeek) =
            .ok answer ∧ NewestValue es u answer) ↔ ∀ e ∈ es, e.userKey ≠ u) := by
  obtain ⟨es', hperm, hsorted, hne', hadded, b, hbuild, hcase⟩ := hm.buildTable_cases hit hs.1 h
  rw [hadded] at hbuild hcase ⊢
  have hfits : ∀ e ∈ es', e.Fits := fun e he => hm.fits e (hperm.mem_iff.1 he)
  have hok : r.status = .OK := (buildTable_any h).2 hs
  rw [hok] at hbuild
  obtain ⟨hne, -⟩ | ⟨-, hmeta, heffect⟩ := hcase
  · exact absurd hok hne
  have hsorted' : (es'.map Entry.pair).Pairwise
      fun p p' => internalKeyRank p.1 < internalKeyRank p'.1 := by
    rw [List.pairwise_map]
    apply hsorted.imp_of_mem
    intro e e' ha hb hlt
    rw [(hfits e ha).internalKeyRank, (hfits e' hb).internalKeyRank]
    exact hlt
  obtain ⟨t, ht, hget⟩ := build_lookup internalKeyCompare_orders hs.2
    (fun h => hne' (List.map_eq_nil_iff.1 h))
    (List.forall_mem_map.2 fun e he => (hfits e he).entryFits)
    (List.forall_mem_map.2 fun e _ => ⟨_, _, _, rfl⟩) hsorted' hbuild
    ((old.getD []).drop b.file.fd.length)
  refine ⟨t, by rw [heffect, hmeta]; exact ht, ?_⟩
  intro u hu
  have hseek : internalKeyRank (createInternalKey u UINT64_MAX kTypeSeek) =
      keyRank u (storedSeq UINT64_MAX) := internalKeyRank_create ..
  -- a search for a user key of the memtable stops at its newest entry
  have hends : SearchEnds internalKeyRank t (es'.map Entry.pair)
      (createInternalKey u UINT64_MAX kTypeSeek) := by
    rcases hu with ⟨e, he, rfl⟩ | hends
    · have he' := hperm.mem_iff.2 he
      refine .inl ⟨e.pair, List.mem_map_of_mem he', ?_⟩
      rw [hseek, (hfits e he').internalKeyRank]
      exact Versioned.place_le.2 (.inr ⟨rfl, (hold e he).le⟩)
    · exact hends
  -- no stored key has the sequence number searched for, so nothing is found
  have hnot : ∀ p ∈ es'.map Entry.pair, internalKeyRank p.1 ≠
      internalKeyRank (createInternalKey u UINT64_MAX kTypeSeek) := by
    refine List.forall_mem_map.2 ?_
    intro e he heq
    rw [hseek, (hfits e he).internalKeyRank] at heq
    exact (hold e (hperm.mem_iff.1 he)).ne (keyRank_inj.1 heq).2
  have hanswer := hget _ ⟨_, _, _, rfl⟩ hends
  rw [find?_rank_eq_none hnot, Option.map_none, ite_self] at hanswer
  constructor
  · rintro ⟨answer, hans, ⟨e, -, rfl⟩ | ⟨hno, -⟩⟩
    · cases hanswer.symm.trans hans
    · exact hno
  · exact fun hno => ⟨none, hanswer, .inr ⟨hno, rfl⟩⟩

/-- A memtable with the key `a`, the table written from it, and the answer for `a`. -/
def writtenLookup (m : Memtable) :
    Exec (MemtableIterator × BuildResult × SSTable × Option Bytes) := do
  let it ← MemtableIterator.make m
  let r ← buildTable .accepting "sstable_1" .make it
  let t ← SSTable.openTable (.ofContent (r.effect.apply none)) r.fileMeta.fileSize
  let t ← t.elim (.error .nullptr) .ok
  let answer ← t.internalGet internalKeyCompare (createInternalKey [97] UINT64_MAX kTypeSeek)
  return (it, r, t, answer)

theorem writtenLookup_eq_ok {m : Memtable} {it : MemtableIterator} {r : BuildResult} {t : SSTable}
    {answer : Option Bytes} (h : writtenLookup m = .ok (it, r, t, answer)) :
    MemtableIterator.make m = .ok it ∧ buildTable .accepting "sstable_1" .make it = .ok r ∧
      SSTable.openTable (.ofContent (r.effect.apply none)) r.fileMeta.fileSize = .ok (some t) ∧
      t.internalGet internalKeyCompare (createInternalKey [97] UINT64_MAX kTypeSeek) =
        .ok answer := by
  obtain ⟨it, hit, h⟩ := Exec.bind_eq_ok.1 h
  obtain ⟨r, hr, h⟩ := Exec.bind_eq_ok.1 h
  obtain ⟨t', ht', h⟩ := Exec.bind_eq_ok.1 h
  obtain ⟨t, ht, h⟩ := Exec.bind_eq_ok.1 h
  obtain ⟨answer, hans, h⟩ := Exec.bind_eq_ok.1 h
  cases h
  cases t' with
  | none => cases ht
  | some t' =>
    obtain rfl : t' = t := Except.ok.inj ht
    exact ⟨hit, hr, ht', hans⟩

/-- An entry of the key `a`. -/
def entryA : Entry := ⟨[97], 1, [98], .kTypeValue⟩

/-- The memtable of that entry, and what is found in the table written from it. -/
theorem exists_writtenLookup : ∃ m it r t, Holds m [entryA] ∧
    writtenLookup m = .ok (it, r, t, none) := by
  have hins : ∀ i ∈ [(entryA, 1)], Insertable i := by decide
  obtain ⟨m, hm, hholds⟩ := (Holds.make 0).insertEntries hins (by simp)
  have hrun : (((Memtable.make 0).insertEntries [(entryA, 1)] >>= writtenLookup).map
      fun x => x.2.2.2) = .ok none := by decide +kernel
  obtain ⟨⟨it, r, t, answer⟩, hlookup, rfl⟩ := Exec.exists_of_map hrun
  rw [hm, Exec.ok_bind] at hlookup
  exact ⟨m, it, r, t, hholds, hlookup⟩

/-- The key `a` in the table of a memtable that has it. -/
theorem internalGet_newest_iff_one_entry :
    ∃ r t, SSTable.openTable (.ofContent (BuildResult.effect r |>.apply none)) r.fileMeta.fileSize =
        .ok (some t) ∧
      ¬ ∃ answer, t.internalGet internalKeyCompare
        (createInternalKey [97] UINT64_MAX kTypeSeek) = .ok answer ∧
          NewestValue [entryA] [97] answer := by
  obtain ⟨m, it, r, t, hm, hlookup⟩ := exists_writtenLookup
  obtain ⟨hit, hr, -⟩ := writtenLookup_eq_ok hlookup
  obtain ⟨t, ht, hiff⟩ := internalGet_newest_iff hm (by simp [entryA]; decide) hit
    BuildEnv.accepting_succeeds hr none
  refine ⟨r, t, ht, ?_⟩
  intro h
  exact (hiff [97] (.inl ⟨entryA, by simp, rfl⟩)).1 h entryA (by simp) rfl

/-- The key `a` is not found in the table of a memtable that has it. -/
theorem internalGet_misses_user_key :
    ¬ ∀ (m : Memtable) (es : List Entry) (it : MemtableIterator) (env : BuildEnv) (name : String)
      (r : BuildResult) (t : SSTable) (u : Bytes), Holds m es →
        (∀ e ∈ es, e.seq < storedSeq UINT64_MAX) → MemtableIterator.make m = .ok it →
        env.Succeeds → buildTable env name .make it = .ok r →
        SSTable.openTable (.ofContent (r.effect.apply none)) r.fileMeta.fileSize = .ok (some t) →
          ∃ answer, t.internalGet internalKeyCompare
            (createInternalKey u UINT64_MAX kTypeSeek) = .ok answer ∧ NewestValue es u answer := by
  intro h
  obtain ⟨m, it, r, t, hm, hlookup⟩ := exists_writtenLookup
  obtain ⟨hit, hr, ht, hans⟩ := writtenLookup_eq_ok hlookup
  obtain ⟨answer, hans', hnew⟩ := h m [entryA] it .accepting "sstable_1" r t [97] hm
    (by simp [entryA]; decide) hit BuildEnv.accepting_succeeds hr ht
  cases hans.symm.trans hans'
  rcases hnew with ⟨e, -, he⟩ | ⟨hno, -⟩
  · cases he
  · exact hno entryA (by simp) rfl

end KoishiDB
