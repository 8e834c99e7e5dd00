import KoishiDB.Db.Manifest
import KoishiDB.Db.Session

/-!
# Flushing and reading

What `Get` finds before and after a memtable is written to a table.  A search in the tables asks for
the key with the largest sequence number *exactly*, and no entry has that number, so nothing is
found there (`searchFiles_none`): a flush hides the entries of the immutable memtable.

* `Serving` : the invariant of a running database, over its memtables and the table files.
* `serving_of_run` : it holds in every run of sessions in which no listed table is overwritten.
* `get_backGroundCompaction_iff` : a flush leaves the answer for a key as it is if and only if the
  memtable has the key or the immutable memtable does not have it.
-/

namespace KoishiDB

/-! ### Searching the tables -/

/-- An internal key with a smaller sequence number than the one searched for. -/
def OlderKey (key : Bytes) : Prop :=
  ∃ u n t, key = createInternalKey u n t ∧ n < storedSeq UINT64_MAX

theorem OlderKey.le_length {key : Bytes} (h : OlderKey key) : 8 ≤ key.length := by
  obtain ⟨u, n, t, rfl, -⟩ := h
  rw [length_createInternalKey]
  omega

/-- The internal key that `Get` searches the tables for. -/
def seekInternalKey (k : Bytes) : Bytes := createInternalKey k UINT64_MAX kTypeSeek

theorem OlderKey.compare {key : Bytes} (h : OlderKey key) (k : Bytes) :
    ∃ c, internalKeyCompare key (seekInternalKey k) = .ok c ∧ c ≠ 0 := by
  obtain ⟨u, n, t, rfl, hn⟩ := h
  have hlt : n < 2 ^ 56 := hn.trans (storedSeq_lt _)
  refine ⟨_, internalKeyCompare_create .., ?_⟩
  intro h0
  have := (keyRank_inj.1 (threeWay_eq_zero.1 h0)).2
  rw [storedSeq_of_lt hlt] at this
  omega

/-- The file of a table starts with a table that opens and holds older keys only. -/
structure Readable (files : ℕ → Option Bytes) (m : FileMeta) : Prop where
  table : ∃ (t : TableLayout) (l : List (Bytes × Bytes)) (rest : Bytes),
    files m.number = some (t.content ++ rest) ∧ m.fileSize = t.fileSize ∧ t.Stores l ∧
      t.index.length < 2 ^ 32 ∧ (blockImage l).length < 2 ^ 32 ∧
      (∀ e ∈ l, BlockIterator.EntryFits e) ∧ (∀ e ∈ l, OlderKey e.1) ∧ OlderKey t.lastKey
  smallest : OlderKey m.smallestKey
  largest : OlderKey m.largestKey

/-- Writing another file keeps a table readable. -/
theorem Readable.update {files : ℕ → Option Bytes} {m : FileMeta} (h : Readable files m) {n : ℕ}
    (hn : m.number ≠ n) (content : Option Bytes) :
    Readable (Function.update files n content) m := by
  refine ⟨?_, h.smallest, h.largest⟩
  rw [Function.update_of_ne hn]
  exact h.table

/-- **Nothing is found in the tables.** -/
theorem searchFiles_none {files : ℕ → Option Bytes} {metas : List FileMeta}
    (h : ∀ m ∈ metas, Readable files m) (k : Bytes) :
    DBimpl.searchFiles files (seekInternalKey k) metas = .ok none := by
  induction metas with
  | nil => rfl
  | cons m metas ih =>
    obtain ⟨hm, hmetas⟩ := List.forall_mem_cons.1 h
    have ih := ih hmetas
    obtain ⟨c₁, hc₁, -⟩ := hm.smallest.compare k
    obtain ⟨c₂, hc₂, -⟩ := hm.largest.compare k
    obtain ⟨t, l, rest, hfile, hsize, hst, hindex, himage, hfits, hkeys, hlast⟩ := hm.table
    have hget := internalGet_absent hst hindex himage hfits (hlast.compare k)
      (fun e he => (hkeys e he).compare k) rest
    have hlookup : lookupTable files (seekInternalKey k) m = .ok none := by
      simp only [lookupTable, hfile, hsize, openTable_spec hst rest, hget, Exec.ok_bind]
    have hrange : ∃ b, m.inRange (seekInternalKey k) = .ok b := by
      rw [FileMeta.inRange_eq hm.smallest.le_length hm.largest.le_length hc₁ hc₂]
      exact ⟨_, rfl⟩
    obtain ⟨b, hb⟩ := hrange
    simp only [DBimpl.searchFiles, searchTables, hb, Exec.ok_bind, hlookup]
    cases b with
    | true => exact ih
    | false => exact ih

/-! ### The table of a memtable -/

/-- The entry is small enough for a block of less than `2 ^ 32` bytes, and not newer than every
search. -/
def Entry.Small (e : Entry) : Prop :=
  e.userKey.length + e.value.length + 2 ^ 13 < 2 ^ 32 ∧ e.seq < storedSeq UINT64_MAX

theorem Entry.Small.olderKey {e : Entry} (h : e.Small) : OlderKey e.pair.1 :=
  ⟨_, _, _, rfl, h.2⟩

/-- A block of small entries all but the last of which stay below `kBlockSize`. -/
theorem image_lt_of_small {es : List Entry} (h : ∀ e ∈ es, e.Small)
    (hl : TableBuilder.Buildable internalKeyCompare (es.map Entry.pair)) :
    (blockImage (es.map Entry.pair)).length < 2 ^ 32 := by
  rcases List.eq_nil_or_concat es with rfl | ⟨es, e, rfl⟩
  · decide
  · rw [List.concat_eq_append] at h hl ⊢
    rw [List.map_append, List.map_singleton] at hl ⊢
    have hsize := (TableBuilder.buildable_append.1 hl).1
    have hsmall := (h e (by simp)).1
    have hle := length_encodeEntry_le e.pair
    have hkey : e.pair.1.length = e.userKey.length + 8 := length_createInternalKey ..
    have hval : e.pair.2.length = e.value.length := rfl
    rw [blockImage_append, blockImage_cons, blockImage_nil, List.append_nil, List.length_append]
    unfold kBlockSize at hsize
    omega

theorem olderKey_lastKeyOf {es : List Entry} (hne : es ≠ []) (h : ∀ e ∈ es, e.Small) :
    OlderKey (lastKeyOf (es.map Entry.pair)) := by
  obtain ⟨es, e, rfl⟩ := List.eq_nil_or_concat es |>.resolve_left hne
  rw [List.concat_eq_append] at h ⊢
  rw [List.map_append, List.map_singleton, lastKeyOf_append]
  exact (h e (by simp)).olderKey

theorem olderKey_firstKeyOf {es : List Entry} (hne : es ≠ []) (h : ∀ e ∈ es, e.Small) :
    OlderKey (firstKeyOf (es.map Entry.pair)) := by
  obtain ⟨e, es, rfl⟩ := List.exists_cons_of_ne_nil hne
  exact (h e (by simp)).olderKey

/-- The file metas that `BuildTable` fills in have 64-bit numbers. -/
theorem length_lt_of_fits {l : List (Bytes × Bytes)}
    (hfits : ∀ e ∈ l, BlockIterator.EntryFits e) : (firstKeyOf l).length < 2 ^ 64 := by
  cases l with
  | nil => decide
  | cons e l =>
    have := (hfits e (List.mem_cons_self ..)).1
    change e.1.length < 2 ^ 64
    omega

/-- The last key of a table of small entries leaves room for its handle in the index block. -/
theorem lastKeyOf_lt_of_small {es : List Entry} (hne : es ≠ []) (hsmall : ∀ e ∈ es, e.Small) :
    (lastKeyOf (es.map Entry.pair)).length + 2 ^ 12 < 2 ^ 32 := by
  obtain ⟨es, e, rfl⟩ := List.eq_nil_or_concat es |>.resolve_left hne
  have hkey := (hsmall e (by simp)).1
  rw [List.concat_eq_append, List.map_append, List.map_singleton, lastKeyOf_append]
  change (createInternalKey _ _ _).length + _ < _
  rw [length_createInternalKey]
  omega

theorem index_lt_of_lastKey {t : TableLayout} (h : t.lastKey.length + 2 ^ 12 < 2 ^ 32) :
    t.index.length < 2 ^ 32 := by
  have hle := length_encodeEntry_le (t.lastKey, t.handle.bytes)
  have hhandle := t.handle.length_bytes_le
  rw [TableLayout.index, blockImage_cons, blockImage_nil, List.append_nil]
  dsimp only at hle
  omega

/-- **The table of a memtable**, when all file operations succeed: its entries in the order of their
keys, and a file meta whose numbers have 64 bits. -/
theorem Holds.buildTable_stores {m : Memtable} {es : List Entry} (hm : Holds m es)
    {it : MemtableIterator} (hit : MemtableIterator.make m = .ok it) {env : BuildEnv}
    (hs : env.Succeeds) {name : String} {r : BuildResult}
    (h : buildTable env name .make it = .ok r) :
    r.status = .OK ∧ ∃ (es' : List Entry) (t : TableLayout), es'.Perm es ∧ es' ≠ [] ∧
      TableBuilder.Buildable internalKeyCompare (es'.map Entry.pair) ∧
      t.Stores (es'.map Entry.pair) ∧ t.lastKey = lastKeyOf (es'.map Entry.pair) ∧
      r.effect = .written t.content ∧
      r.fileMeta = ⟨t.fileSize, 0, firstKeyOf (es'.map Entry.pair),
        lastKeyOf (es'.map Entry.pair)⟩ ∧
      ∀ number, number < 2 ^ 64 → FileMeta.Fits { r.fileMeta with number := number } := by
  obtain ⟨es', hperm, -, hne', hadded, b, hbuild, hcase⟩ := hm.buildTable_cases hit hs.1 h
  rw [hadded] at hbuild hcase
  have hfits : ∀ e ∈ es'.map Entry.pair, BlockIterator.EntryFits e :=
    List.forall_mem_map.2 fun e he => (hm.fits e (hperm.mem_iff.1 he)).entryFits
  have hne : es'.map Entry.pair ≠ [] := fun h => hne' (List.map_eq_nil_iff.1 h)
  obtain ⟨b₀, hadd, -⟩ := Exec.bind_eq_ok.1 hbuild
  have hl := TableBuilder.addAll_buildable hs.2 hfits hadd
  obtain ⟨b', t, hb', hst, -, hfd, hfs, hlast⟩ := TableBuilder.build_stores hs.2 name hne hfits hl
  obtain ⟨hok, rfl⟩ := Prod.mk.inj (Except.ok.inj (hbuild.symm.trans hb'))
  obtain ⟨hne, -⟩ | ⟨-, hmeta, heffect⟩ := hcase
  · exact absurd hok hne
  refine ⟨hok, es', t, hperm, hne', hl, hst, hlast, by rw [heffect, hfd], by rw [hmeta, hfs]; rfl,
    ?_⟩
  intro number hnumber
  have h1 := hst.small
  have h2 := length_lt_of_fits hfits
  have h3 := TableBuilder.lastKeyOf_lt hfits
  rw [hmeta, hfs]
  exact ⟨by change t.fileSize < _; omega, hnumber, h2, by change (lastKeyOf _).length < _; omega⟩

/-- **A memtable of small entries becomes a readable table**, when all file operations succeed. -/
theorem buildTable_readable {m : Memtable} {es : List Entry} (hm : Holds m es)
    (hsmall : ∀ e ∈ es, e.Small) {it : MemtableIterator} (hit : MemtableIterator.make m = .ok it)
    {env : BuildEnv} (hs : env.Succeeds) {name : String} {r : BuildResult}
    (h : buildTable env name .make it = .ok r) {number : ℕ} (hnumber : number < 2 ^ 64)
    (files : ℕ → Option Bytes) :
    r.status = .OK ∧
      Readable (Function.update files number (r.effect.apply (files number)))
        { r.fileMeta with number := number } ∧
      FileMeta.Fits { r.fileMeta with number := number } := by
  obtain ⟨hok, es', t, hperm, hne, hl, hst, hlast, heffect, hmeta, hfits⟩ :=
    hm.buildTable_stores hit hs h
  have hsmall' : ∀ e ∈ es', e.Small := fun e he => hsmall e (hperm.mem_iff.1 he)
  have hlastKey := olderKey_lastKeyOf hne hsmall'
  -- the table is written over whatever the file had before, which keeps its tail
  refine ⟨hok, ⟨⟨t, es'.map Entry.pair, ((files number).getD []).drop t.content.length, ?_, ?_, hst,
    ?_, image_lt_of_small hsmall' hl, ?_, ?_, ?_⟩, ?_, ?_⟩, hfits number hnumber⟩
  · rw [Function.update_self, heffect]
    rfl
  · rw [hmeta]
  · exact index_lt_of_lastKey (hlast ▸ lastKeyOf_lt_of_small hne hsmall')
  · exact List.forall_mem_map.2 fun e he => (hm.fits e (hperm.mem_iff.1 he)).entryFits
  · exact List.forall_mem_map.2 fun e he => (hsmall' e he).olderKey
  · rw [hlast]; exact hlastKey
  · rw [hmeta]; exact olderKey_firstKeyOf hne hsmall'
  · rw [hmeta]; exact hlastKey

/-! ### The invariant -/

/-- The operation is small enough for a block of less than `2 ^ 32` bytes. -/
def WriteOp.Small : WriteOp → Prop
  | put k v => k.length + v.length + 2 ^ 13 < 2 ^ 32
  | delete k => k.length + 1 + 2 ^ 13 < 2 ^ 32

instance (op : WriteOp) : Decidable op.Small :=
  match op with
  | .put _ _ => Nat.decLt _ _
  | .delete _ => Nat.decLt _ _

theorem WriteOp.Small.fits {op : WriteOp} (h : op.Small) : op.Fits := by
  cases op with
  | put k v =>
    have h : k.length + v.length + 2 ^ 13 < 2 ^ 32 := h
    exact keyFits_of_length (by omega)
  | delete k =>
    have h : k.length + 1 + 2 ^ 13 < 2 ^ 32 := h
    exact keyFits_of_length (by simp only [List.length_singleton]; omega)

theorem WriteOp.Small.entry {op : WriteOp} (h : op.Small) {n : ℕ} (hn : n < storedSeq UINT64_MAX) :
    (op.entry n).Small := by
  refine ⟨?_, by rw [WriteOp.entry_seq]; exact hn⟩
  cases op with
  | put k v =>
    have h : k.length + v.length + 2 ^ 13 < 2 ^ 32 := h
    have h1 := length_cString_le k
    have h2 := length_cString_le v
    change (cString k).length + (cString v).length + 2 ^ 13 < 2 ^ 32
    omega
  | delete k =>
    have h : k.length + 1 + 2 ^ 13 < 2 ^ 32 := h
    have h1 := length_cString_le k
    change (cString k).length + 1 + 2 ^ 13 < 2 ^ 32
    omega

theorem small_of_mem_entries {ops : List WriteOp} (h : ∀ op ∈ ops, op.Small) {s : ℕ}
    (hs : s + ops.length < storedSeq UINT64_MAX) {e : Entry} (he : e ∈ WriteOp.entries s ops) :
    e.Small := by
  induction ops generalizing s with
  | nil => cases he
  | cons op ops ih =>
    rw [List.length_cons] at hs
    obtain ⟨hop, hops⟩ := List.forall_mem_cons.1 h
    rcases List.mem_cons.1 he with rfl | he
    · exact hop.entry (by omega)
    · exact ih hops (by omega) he

/-- The memtable holds entries with the property `P`, none newer than `bound`. -/
def HoldsAll (P : Entry → Prop) (m : Memtable) (bound : ℕ) : Prop :=
  ∃ es, Holds m es ∧ (∀ e ∈ es, P e) ∧ ∀ e ∈ es, e.seq ≤ bound

theorem HoldsAll.make (P : Entry → Prop) (size₀ bound : ℕ) :
    HoldsAll P (Memtable.make size₀) bound :=
  ⟨[], .make size₀, by simp, by simp⟩

theorem HoldsAll.mono {P : Entry → Prop} {m : Memtable} {bound bound' : ℕ}
    (h : HoldsAll P m bound) (hle : bound ≤ bound') : HoldsAll P m bound' := by
  obtain ⟨es, hes, hP, hseq⟩ := h
  exact ⟨es, hes, hP, fun e he => (hseq e he).trans hle⟩

/-- The two memtables of a database hold entries with the property `P`. -/
structure DBimpl.HoldsBoth (P : Entry → Prop) (db : DBimpl) : Prop where
  memtable : HoldsAll P db.memtable db.lastSequence
  immutable : ∀ imm, db.immutableMemtable = some imm → HoldsAll P imm db.lastSequence

namespace DBimpl.HoldsBoth

variable {P : Entry → Prop} {db db' : DBimpl}

theorem makeRoom (h : HoldsBoth P db) {size₀ : ℕ} (hroom : db.makeRoomForWrite size₀ = .ok db') :
    HoldsBoth P db' := by
  rcases makeRoomForWrite_eq_ok.1 hroom with ⟨-, rfl⟩ | ⟨-, -, -, rfl⟩
  · exact h
  · refine ⟨?_, ?_⟩
    · rw [rotate_memtable]
      exact .make P _ _
    · intro imm himm
      rw [rotate_immutableMemtable] at himm
      cases himm
      rw [rotate_lastSequence]
      exact h.memtable

/-- A `Write` of operations whose entries have the property. -/
theorem write (h : HoldsBoth P db) {size₀ : ℕ} {heights : Heights} {batch : WriteBatch}
    {ops : List WriteOp} {es : List Entry} (hbatch : WriteBatch.build ops = .ok batch)
    (hfits : ∀ op ∈ ops, op.Fits) (hP : ∀ e ∈ WriteOp.entries db.lastSequence ops, P e)
    (hlt : db.lastSequence + ops.length < 2 ^ 56)
    (hwrite : db.write size₀ heights batch = .ok (db', es)) :
    HoldsBoth P db' ∧ db'.lastSequence = db.lastSequence + ops.length ∧
      db'.fileMetas = db.fileMetas ∧ db'.sstableNumber = db.sstableNumber := by
  obtain ⟨db₁, m, w, hroom, hlast, hw, hins, rfl⟩ :=
    write_encodes (encodes_build hbatch) hlt hwrite
  have h₁ := h.makeRoom hroom
  obtain ⟨old, hold, holdP, hle⟩ := h₁.memtable
  rw [hlast] at hle
  obtain ⟨m', hins', hm', -⟩ := insertAll_spec heights hw hfits hold hle hlt
  cases hins.symm.trans hins'
  have htables : db₁.fileMetas = db.fileMetas ∧ db₁.sstableNumber = db.sstableNumber := by
    rcases makeRoomForWrite_eq_ok.1 hroom with ⟨-, rfl⟩ | ⟨-, -, -, rfl⟩
    · exact ⟨rfl, rfl⟩
    · exact ⟨rotate_fileMetas .., rotate_sstableNumber ..⟩
  refine ⟨⟨⟨_, hm', ?_, ?_⟩, ?_⟩, rfl, htables⟩
  · intro e he
    rcases List.mem_append.1 he with he | he
    · exact holdP e he
    · exact hP e he
  · intro e he
    rcases List.mem_append.1 he with he | he
    · exact (hle e he).trans (Nat.le_add_right ..)
    · exact (seq_of_mem_entries he).2
  · intro imm himm
    exact (h₁.immutable imm himm).mono (hlast ▸ Nat.le_add_right ..)

/-- The destructor makes the memtable the immutable one, whatever was there before. -/
theorem retire (h : HoldsBoth P db) : HoldsBoth P db.retireMemtable := by
  refine ⟨h.memtable, ?_⟩
  rintro imm himm
  cases himm
  exact h.memtable

end DBimpl.HoldsBoth

/-- A memtable of small entries. -/
def SmallMemtable (m : Memtable) (bound : ℕ) : Prop :=
  ∃ es, Holds m es ∧ (∀ e ∈ es, e.Small) ∧ ∀ e ∈ es, e.seq ≤ bound

/-- What holds of a running database over the table files. -/
structure Serving (files : ℕ → Option Bytes) (db : DBimpl) : Prop where
  memtable : SmallMemtable db.memtable db.lastSequence
  immutable : ∀ imm, db.immutableMemtable = some imm → SmallMemtable imm db.lastSequence
  readable : ∀ m ∈ db.fileMetas, Readable files m
  fits : ∀ m ∈ db.fileMetas, m.Fits
  number_lt : db.sstableNumber < 2 ^ 64
  pos : 0 < db.lastSequence
  lt : db.lastSequence < storedSeq UINT64_MAX

namespace Serving

variable {files : ℕ → Option Bytes} {db db' : DBimpl}

theorem holdsBoth (h : Serving files db) : db.HoldsBoth Entry.Small := ⟨h.memtable, h.immutable⟩

theorem write (h : Serving files db) {size₀ : ℕ} {heights : Heights} {batch : WriteBatch}
    {ops : List WriteOp} {es : List Entry} (hbatch : WriteBatch.build ops = .ok batch)
    (hsmall : ∀ op ∈ ops, op.Small) (hlt : db.lastSequence + ops.length < storedSeq UINT64_MAX)
    (hwrite : db.write size₀ heights batch = .ok (db', es)) : Serving files db' := by
  have hmax := storedSeq_lt UINT64_MAX
  obtain ⟨hboth, hlast, hmetas, hnumber⟩ := h.holdsBoth.write hbatch
    (fun op hop => (hsmall op hop).fits) (fun e he => small_of_mem_entries hsmall hlt he)
    (by omega) hwrite
  refine ⟨hboth.memtable, hboth.immutable, ?_, ?_, ?_, ?_, ?_⟩
  · rw [hmetas]; exact h.readable
  · rw [hmetas]; exact h.fits
  · rw [hnumber]; exact h.number_lt
  · rw [hlast]; exact Nat.add_pos_left h.pos _
  · rw [hlast]; exact hlt

/-- A successful compaction into a file that no table uses. -/
theorem compactMemtable (h : Serving files db) {env : BuildEnv} (hs : env.Succeeds)
    (hfresh : db.sstableNumber ∉ db.fileMetas.map FileMeta.number) {r : BuildResult}
    (hc : db.compactMemtable env = .ok (db', r)) :
    r.status = .OK ∧ Serving (Function.update files db.sstableNumber
      (r.effect.apply (files db.sstableNumber))) db' ∧
      db'.memtable = db.memtable ∧ db'.fileMetas ≠ [] := by
  obtain ⟨imm, it, himm, hit, hbuild, rfl⟩ := DBimpl.compactMemtable_cases hc
  obtain ⟨es, hes, hsmall, -⟩ := h.immutable imm himm
  obtain ⟨hok, hread, hfits⟩ := buildTable_readable hes hsmall hit hs hbuild h.number_lt files
  refine ⟨hok, ⟨h.memtable, h.immutable, ?_, ?_, ?_, h.pos, h.lt⟩, rfl,
    List.append_ne_nil_of_right_ne_nil _ (List.cons_ne_nil _ _)⟩
  -- The older tables are in other files, so writing this one leaves them readable.
  · intro m hm
    rcases List.mem_append.1 hm with hm | hm
    · refine (h.readable m hm).update (fun heq => hfresh ?_) _
      rw [← heq]
      exact List.mem_map_of_mem hm
    · rw [List.mem_singleton.1 hm]
      exact hread
  · intro m hm
    rcases List.mem_append.1 hm with hm | hm
    · exact h.fits m hm
    · rw [List.mem_singleton.1 hm]
      exact hfits
  · dsimp only
    split_ifs
    · exact Nat.mod_lt _ (by decide)
    · exact Nat.mod_lt _ (by decide)

end Serving

/-! ### Runs -/

/-- The next table file is not one of the listed tables. -/
def NextFree (w : World) : Prop :=
  ∀ db, w.db = some db → db.sstableNumber ∉ db.fileMetas.map FileMeta.number

/-- The operations are small, the sequence numbers stay below the one that is searched for, and
tables are written successfully into files that no listed table uses. -/
def KeepsTables (w : World) : Action → Prop
  | .create _ => True
  | .write ops _ _ => (∀ op ∈ ops, op.Small) ∧
      ∀ db, w.db = some db → db.lastSequence + ops.length < storedSeq UINT64_MAX
  | .backGroundCall env => env.Succeeds ∧ NextFree w
  | .destroy env manifestEnv => env.Succeeds ∧ manifestEnv.Succeeds ∧ NextFree w

/-- What every step keeps: the running database is served by the table files, or the manifest
lists readable tables. -/
def Served (w : World) : Prop :=
  match w.db with
  | some db => Serving w.disk.sstable db
  | none => w.disk.manifest = none ∨ ∃ metas L rest,
      w.disk.manifest = some (DBimpl.manifestBytes metas L ++ rest) ∧ metas ≠ [] ∧ 0 < L ∧
      L < storedSeq UINT64_MAX ∧ (∀ m ∈ metas, Readable w.disk.sstable m) ∧
      ∀ m ∈ metas, m.Fits

theorem Served.running {w : World} {db : DBimpl} (h : Served w) (hdb : w.db = some db) :
    Serving w.disk.sstable db := by
  rwa [Served, hdb] at h

theorem served_create {w : World} {u : Uninit} {db : DBimpl} (h : Served w) (hdb : w.db = none)
    (hmake : DBimpl.make u w.disk.manifest = .ok db) : Serving w.disk.sstable db := by
  obtain ⟨-, hmem, himm, -⟩ := DBimpl.make_frame hmake
  obtain ⟨metas, L, hlists, hpos, hlt, hread, hfits⟩ : ∃ metas L,
      DBimpl.Lists w.disk.manifest metas L ∧ 0 < L ∧ L < storedSeq UINT64_MAX ∧
      (∀ m ∈ metas, Readable w.disk.sstable m) ∧ ∀ m ∈ metas, m.Fits := by
    rw [Served, hdb] at h
    rcases h with hman | ⟨metas, L, rest, hman, hne, hrest⟩
    · exact ⟨[], 1, .inl ⟨hman, rfl, rfl⟩, by decide, by decide, by simp, by simp⟩
    · exact ⟨metas, L, .inr ⟨hne, rest, hman⟩, hrest⟩
  have hmax := storedSeq_lt UINT64_MAX
  obtain ⟨rfl, rfl, hnumber⟩ := DBimpl.make_of_lists hlists hpos (by omega) hfits hmake
  refine ⟨?_, ?_, hread, hfits, hnumber, hpos, hlt⟩
  · rw [hmem]
    exact HoldsAll.make ..
  · rw [himm]
    simp

/-- A step that keeps the tables readable. -/
theorem served_step {w w' : World} {a : Action} (h : Served w) (ha : KeepsTables w a)
    (hstep : w.step a = .ok w') : Served w' := by
  rcases World.step_cases hstep with ⟨u, db, rfl, hdb, hmake, rfl⟩ |
    ⟨ops, size₀, heights, db, batch, db', es, rfl, hdb, hbatch, hwrite, rfl⟩ |
    ⟨env, db, db', r, rfl, hdb, -, hcall, rfl⟩ |
    ⟨env, manifestEnv, db, db', r, effect, rfl, hdb, -, hclose, rfl⟩
  · exact served_create (w := w) h hdb hmake
  · exact (h.running hdb).write hbatch ha.1 (ha.2 db hdb) hwrite
  · have hdb' := h.running hdb
    rcases DBimpl.backGroundCall_cases hcall with ⟨-, rfl, rfl⟩ | ⟨db₁, r₁, rfl, hcomp, rfl⟩
    · exact ⟨hdb'.memtable, hdb'.immutable, hdb'.readable, hdb'.fits, hdb'.number_lt, hdb'.pos,
        hdb'.lt⟩
    · obtain ⟨hok, h₁, -⟩ := hdb'.compactMemtable ha.1 (ha.2 db hdb) hcomp
      refine ⟨h₁.memtable, ?_, h₁.readable, h₁.fits, h₁.number_lt, h₁.pos, h₁.lt⟩
      intro imm himm
      rw [hok] at himm
      cases himm
  · obtain ⟨hs, hms, hfree⟩ := ha
    have hdb' := h.running hdb
    obtain ⟨-, db₁, hcomp, rfl, hdump⟩ := DBimpl.close_cases hclose
    have hretire : Serving w.disk.sstable db.retireMemtable :=
      ⟨hdb'.memtable, hdb'.holdsBoth.retire.immutable, hdb'.readable, hdb'.fits, hdb'.number_lt,
        hdb'.pos, hdb'.lt⟩
    obtain ⟨-, h₁, -, hne⟩ := hretire.compactMemtable hs (hfree db hdb) hcomp
    rw [DBimpl.dumpManifest_spec hms hdump]
    exact .inr ⟨_, _, _, rfl, hne, h₁.pos, h₁.lt, h₁.readable, h₁.fits⟩

/-- **Every run that keeps the tables** leads to a database that is served by its files. -/
theorem serving_of_run {as : List Action} {w : World} {db : DBimpl}
    (hall : Machine.Along World.step KeepsTables World.start as)
    (hrun : Machine.run World.step World.start as = .ok w) (hdb : w.db = some db) :
    Serving w.disk.sstable db :=
  (Machine.run_invariant (fun _ _ _ h ha hstep => served_step h ha hstep)
    (show Served World.start from .inl rfl) hall hrun).running hdb

/-! ### What `Get` answers before and after a flush -/

/-- The user key of a memtable key. -/
def memtableUserKey (memtableKey : Bytes) : Option Bytes :=
  match extractInternalKey memtableKey >>= fun internalKey => extractUserKey internalKey with
  | .ok (userKey, some _) => some userKey.bytes
  | _ => none

/-- The memtable has an entry of the key. -/
def Memtable.HasKey (m : Memtable) (k : Bytes) : Prop :=
  ∃ n ∈ m.table.nodes, memtableUserKey n.key = some k

instance (m : Memtable) (k : Bytes) : Decidable (m.HasKey k) :=
  inferInstanceAs (Decidable (∃ n ∈ m.table.nodes, _))

theorem Entry.Fits.memtableUserKey {e : Entry} (h : e.Fits) :
    memtableUserKey e.memtableKey = some e.userKey := by
  simp only [KoishiDB.memtableUserKey, Entry.memtableKey,
    extractInternalKey_create _ _ _ h.1.key_lt, Exec.ok_bind, extractUserKey_create,
    Slice.bytes_ofBytes]

theorem Holds.hasKey_iff {m : Memtable} {es : List Entry} (h : Holds m es) {k : Bytes} :
    m.HasKey k ↔ ∃ e ∈ es, e.userKey = k := by
  constructor
  · rintro ⟨n, hn, hk⟩
    obtain ⟨e, he, hkey⟩ := h.node_mem hn
    rw [hkey, (h.fits e he).memtableUserKey] at hk
    exact ⟨e, he, Option.some.inj hk⟩
  · rintro ⟨e, he, rfl⟩
    obtain ⟨n, hn, hkey⟩ := h.exists_node he
    exact ⟨n, hn, by rw [hkey, (h.fits e he).memtableUserKey]⟩

/-- A search in a memtable of small entries finds something if and only if it has the key. -/
theorem SmallMemtable.get_eq {m : Memtable} {bound : ℕ} (h : SmallMemtable m bound) {k : Bytes}
    (hk : KeyFits k []) :
    ∃ o, m.get (DBimpl.seekKey k) = .ok o ∧ (o = none ↔ ¬ m.HasKey k) := by
  obtain ⟨es, hes, hsmall, -⟩ := h
  rw [hes.hasKey_iff]
  rcases hes.find_cases (n := UINT64_MAX) (t := kTypeSeek) hk with
    ⟨hf, hall⟩ | ⟨e, he, hf, hle, hleast⟩
  · refine ⟨none, by simp [DBimpl.seekKey, Memtable.get, hf], iff_of_true rfl ?_⟩
    rintro ⟨e, he, rfl⟩
    have := (keyRank_lt.1 (hall e he)).resolve_left (lt_irrefl _)
    exact absurd (hsmall e he).2 this.2.not_gt
  · refine ⟨_, get_of_find hk (hes.fits e he) hf, ?_⟩
    by_cases heq : e.userKey = k
    · simp only [heq, ↓reduceIte, reduceCtorEq, false_iff, not_not]
      exact ⟨e, he, heq⟩
    · rw [if_neg heq]
      refine iff_of_true rfl ?_
      rintro ⟨e', he', hk'⟩
      exact absurd (Versioned.key_ne_of_least hle hleast heq e' he' hk') (hsmall e' he').2.not_gt

/-- `Get` answers from the memtables. -/
theorem Serving.get_eq {files : ℕ → Option Bytes} {db : DBimpl} (h : Serving files db) {k : Bytes}
    {o o' : Option Bytes} (ho : db.memtable.get (DBimpl.seekKey k) = .ok o)
    (ho' : db.searchImmutable k = .ok o') : db.get files k = .ok (o.or o') := by
  have hsearch := searchFiles_none h.readable k
  unfold seekInternalKey at hsearch
  simp only [DBimpl.get, ho, ho', Exec.ok_bind, hsearch]
  cases o with
  | some v => rfl
  | none => cases o' <;> rfl

/-- **When a flush is invisible.**  In every state that a run which keeps the tables reaches, with
an immutable memtable and a free table file, a successful `BackGroundCompaction` leaves the answer
of `Get` for a key as it was, if and only if the memtable has the key or the immutable memtable
does not have it. -/
theorem get_backGroundCompaction_iff {as : List Action} {w : World} {db db' : DBimpl}
    {imm : Memtable} {env : BuildEnv} {r : BuildResult}
    (hall : Machine.Along World.step KeepsTables World.start as)
    (hrun : Machine.run World.step World.start as = .ok w) (hdb : w.db = some db)
    (himm : db.immutableMemtable = some imm) (hs : env.Succeeds) (hfree : NextFree w)
    (hflush : db.backGroundCompaction env = .ok (db', some r)) {k : Bytes} (hk : KeyFits k []) :
    db'.get (w.record db.sstableNumber r).disk.sstable k = db.get w.disk.sstable k ↔
      db.memtable.HasKey k ∨ ¬ imm.HasKey k := by
  have h := serving_of_run hall hrun hdb
  rcases DBimpl.backGroundCompaction_cases hflush with ⟨hnone, -⟩ | ⟨db₁, r₁, hcomp, hr, rfl⟩
  · cases hnone.symm.trans himm
  cases hr
  obtain ⟨hok, h₁, hmem, -⟩ := h.compactMemtable hs (hfree db hdb) hcomp
  rw [hok, if_pos (show Status.ok .OK = true from rfl)]
  have h' : Serving (w.record db.sstableNumber r).disk.sstable
      { db₁ with immutableMemtable := none } :=
    ⟨h₁.memtable, (fun imm himm => by cases himm), h₁.readable, h₁.fits, h₁.number_lt, h₁.pos,
      h₁.lt⟩
  obtain ⟨o, ho, hiff⟩ := h.memtable.get_eq hk
  obtain ⟨o', ho', hiff'⟩ := (h.immutable imm himm).get_eq hk
  have hsearch : db.searchImmutable k = .ok o' := by
    unfold DBimpl.searchImmutable
    rw [himm]
    exact ho'
  -- The tables have no answer for any key, so `Get` has only the two memtables to ask.
  have hbefore := h.get_eq ho hsearch
  have hafter := h'.get_eq (hmem ▸ ho) (show DBimpl.searchImmutable k _ = .ok none from rfl)
  rw [hbefore, hafter, Except.ok.injEq, ← hiff', ← not_not (a := db.memtable.HasKey k), ← hiff]
  cases o <;> cases o' <;> simp

/-- What the flush of the running database does to the answer for a key: whether there is an
immutable memtable and whether the flush succeeds, and the lengths of the answers before and
after. -/
def flushAnswers (k : Bytes) (w : World) : Exec (Bool × Option ℕ × Option ℕ) := do
  let db ← w.running
  let (db', r) ← db.backGroundCompaction .accepting
  let r ← r.elim (.error .nullptr) .ok
  let before ← db.get w.disk.sstable k
  let after ← db'.get (w.record db.sstableNumber r).disk.sstable k
  return (db.immutableMemtable.isSome && r.status.ok, before.map List.length,
    after.map List.length)

theorem flushAnswers_eq_ok {k : Bytes} {w : World} {a : Bool × Option ℕ × Option ℕ}
    (h : flushAnswers k w = .ok a) : ∃ db db' r before after, w.db = some db ∧
      db.backGroundCompaction .accepting = .ok (db', some r) ∧
      db.get w.disk.sstable k = .ok before ∧
      db'.get (w.record db.sstableNumber r).disk.sstable k = .ok after ∧
      (db.immutableMemtable.isSome && r.status.ok, before.map List.length,
        after.map List.length) = a := by
  obtain ⟨db, hdb, h₁⟩ := Exec.bind_eq_ok.1 h
  obtain ⟨⟨db', r⟩, hflush, h₂⟩ := Exec.bind_eq_ok.1 h₁
  obtain ⟨r₁, hr, h₃⟩ := Exec.bind_eq_ok.1 h₂
  obtain ⟨before, hbefore, h₄⟩ := Exec.bind_eq_ok.1 h₃
  obtain ⟨after, hafter, h₅⟩ := Exec.bind_eq_ok.1 h₄
  cases r with
  | none => cases hr
  | some r =>
    obtain rfl : r = r₁ := Except.ok.inj hr
    exact ⟨db, db', r, before, after, World.running_eq_ok.1 hdb, hflush, hbefore, hafter,
      Except.ok.inj h₅⟩

/-- The key of the second write is still found when the first write is flushed. -/
theorem get_backGroundCompaction_iff_two_writes :
    ∃ w db db' r, Machine.run World.step World.start twoWrites = .ok w ∧ w.db = some db ∧
      db.backGroundCompaction .accepting = .ok (db', some r) ∧
      db'.get (w.record db.sstableNumber r).disk.sstable [98] = db.get w.disk.sstable [98] := by
  have hrun : (Machine.run World.step World.start twoWrites >>= fun w => do
      let a ← flushAnswers [98] w
      return (a, w.db.map fun db => (db.sstableNumber, db.fileMetas.length,
        decide (db.memtable.HasKey [98])))) =
      .ok ((true, some 1, some 1), some (1, 0, true)) := by
    decide +kernel
  obtain ⟨w, hw, hdata⟩ := Exec.bind_eq_ok.1 hrun
  obtain ⟨a, hflush, hdata⟩ := Exec.bind_eq_ok.1 hdata
  obtain ⟨rfl, hdata⟩ := Prod.mk.inj (Except.ok.inj hdata)
  obtain ⟨db, db', r, before, after, hdb, hcomp, -, -, heq⟩ := flushAnswers_eq_ok hflush
  rw [hdb] at hdata
  obtain ⟨-, hmetas, hkey⟩ : db.sstableNumber = 1 ∧ db.fileMetas.length = 0 ∧
      decide (db.memtable.HasKey [98]) = true := by simpa using hdata
  obtain ⟨imm, himm⟩ : ∃ imm, db.immutableMemtable = some imm := by
    have := congrArg Prod.fst heq
    simp only [Bool.and_eq_true] at this
    exact Option.isSome_iff_exists.1 this.1
  have hfree : NextFree w := by
    intro db₁ hdb₁
    cases hdb₁.symm.trans hdb
    rw [List.eq_nil_of_length_eq_zero hmetas]
    exact List.not_mem_nil
  have hall : Machine.Along World.step KeepsTables World.start twoWrites := by
    refine along_oneWrite_append trivial ?_ ?_
    · intro w₁ db₁ hdb₁ hlast₁
      exact ⟨by decide, World.lastSequence_lt hdb₁ hlast₁ (by decide)⟩
    · intro w₁ db₁ hdb₁ hlast₁
      exact ⟨⟨by decide, World.lastSequence_lt hdb₁ hlast₁ (by decide)⟩, fun _ _ => trivial⟩
  refine ⟨w, db, db', r, hw, hdb, hcomp, ?_⟩
  exact (get_backGroundCompaction_iff hall hw hdb himm BuildEnv.accepting_succeeds hfree hcomp
    (by unfold KeyFits; decide)).2 (.inl (of_decide_eq_true hkey))

/-- A value that fills the memtable, and a second write. -/
def fillAndWrite : List Action :=
  [.create ⟨0, false, 0⟩, .write [.put [97] (List.replicate 4096 49)] 0 flatHeights,
    .write [.put [98] [50]] 0 flatHeights]

/-- After the flush of the first write, its key is not found any more. -/
theorem get_backGroundCompaction_loses_key :
    ∃ w db db' r v, Machine.run World.step World.start fillAndWrite = .ok w ∧ w.db = some db ∧
      db.backGroundCompaction .accepting = .ok (db', some r) ∧ r.status.ok = true ∧
      db.get w.disk.sstable [97] = .ok (some v) ∧
      db'.get (w.record db.sstableNumber r).disk.sstable [97] = .ok none := by
  have hrun : (Machine.run World.step World.start fillAndWrite >>= flushAnswers [97]) =
      .ok (true, some 4096, none) := by
    decide +kernel
  obtain ⟨w, hw, hflush⟩ := Exec.bind_eq_ok.1 hrun
  obtain ⟨db, db', r, before, after, hdb, hcomp, hbefore, hafter, heq⟩ := flushAnswers_eq_ok hflush
  simp only [Prod.mk.injEq, Bool.and_eq_true, Option.map_eq_some_iff, Option.map_eq_none_iff] at heq
  obtain ⟨⟨-, hok⟩, ⟨v, rfl, -⟩, rfl⟩ := heq
  exact ⟨w, db, db', r, v, hw, hdb, hcomp, hok, hbefore, hafter⟩

end KoishiDB
