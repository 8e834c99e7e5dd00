import KoishiDB.Base.Layers
import KoishiDB.Db.Manifest
import KoishiDB.Db.Session

/-!
# Sequence numbers

Every run of sessions whose operations have 32-bit lengths keeps the sequence numbers in order
(`sequencesOrdered_of_run`): they increase from entry to entry over all commits, without a gap
inside a batch; `last_sequence_` is the largest one; and the numbers in the memtable, in the
immutable memtable and in the tables are apart, newest first.  `last_sequence_` survives a restart
through the manifest.

A batch stores the lengths of keys and values in 32 bits.  A longer key is cut off in the batch, its
bytes are then taken for operations, and those without a known type leave a gap in the numbers
(`sequencesOrdered_fails_long_key`).
-/

namespace KoishiDB

/-! ### The numbers in a memtable and in a table -/

/-- The sequence number of an internal key. -/
def sequenceOf (internalKey : Bytes) : Option ℕ :=
  match extractUserKey internalKey with
  | .ok (_, seq) => seq
  | .error _ => none

/-- The sequence number of a memtable key. -/
def memtableKeySequence (memtableKey : Bytes) : Option ℕ :=
  match extractInternalKey memtableKey with
  | .ok internalKey => sequenceOf internalKey
  | .error _ => none

/-- The sequence numbers in a memtable. -/
def Memtable.sequences (m : Memtable) : List ℕ :=
  (m.table.nodes.map Node.key).filterMap memtableKeySequence

/-- The sequence numbers in the immutable memtable, if there is one. -/
def DBimpl.immutableSequences (db : DBimpl) : List ℕ :=
  db.immutableMemtable.elim [] Memtable.sequences

/-- The sequence numbers of the pairs of a table. -/
def pairSequences (l : List (Bytes × Bytes)) : List ℕ := l.filterMap fun e => sequenceOf e.1

/-- The sequence numbers in the tables built so far. -/
def World.tableSequences (w : World) : List ℕ := w.tables.flatMap pairSequences

/-- **Sequence numbers order history.** -/
structure SequencesOrdered (w : World) : Prop where
  /-- All entries ever inserted have distinct numbers, which increase in commit order. -/
  increasing : (w.commits.flatten.map Entry.seq).Pairwise (· < ·)
  /-- Inside one batch there is no gap. -/
  consecutive : ∀ es ∈ w.commits, ∃ s, es.map Entry.seq = List.range' s es.length
  /-- No number is larger than `last_sequence_`. -/
  le_last : ∀ db, w.db = some db → ∀ e ∈ w.commits.flatten, e.seq ≤ db.lastSequence
  /-- The memtable is above the immutable memtable, which is above the tables; all of them are at
  most `last_sequence_`. -/
  layered : ∀ db, w.db = some db →
    Layered w.tableSequences db.immutableSequences db.memtable.sequences db.lastSequence

/-- The operations written have 32-bit lengths, `last_sequence_` stays below `2 ^ 56`, and the
manifest is written. -/
def KeepsSequence (w : World) : Action → Prop
  | .create _ => True
  | .write ops _ _ => (∀ op ∈ ops, op.Short) ∧
      ∀ db, w.db = some db → db.lastSequence + ops.length < 2 ^ 56
  | .backGroundCall _ => True
  | .destroy _ manifestEnv => manifestEnv.Succeeds

theorem memtableKeySequence_entry {e : Entry} (hk : e.userKey.length + 8 < 2 ^ 32)
    (hs : e.seq < 2 ^ 56) : memtableKeySequence e.memtableKey = some e.seq := by
  unfold memtableKeySequence Entry.memtableKey
  rw [extractInternalKey_create _ _ _ hk]
  simp only [sequenceOf, extractUserKey_create, storedSeq_of_lt hs]

theorem WriteOp.Short.entry_key {op : WriteOp} (h : op.Short) (n : ℕ) :
    (op.entry n).userKey.length + 8 < 2 ^ 32 := by
  have hk : op.key.length + 8 < 2 ^ 32 := by
    cases op with
    | put k v => exact h.1
    | delete k => exact h
  have := length_cString_le op.key
  have : (op.entry n).userKey = cString op.key := by cases op <;> rfl
  rw [this]
  omega

theorem key_lt_of_mem_entries {ops : List WriteOp} (h : ∀ op ∈ ops, op.Short) {s : ℕ} {e : Entry}
    (he : e ∈ WriteOp.entries s ops) : e.userKey.length + 8 < 2 ^ 32 := by
  induction ops generalizing s with
  | nil => cases he
  | cons op ops ih =>
    obtain ⟨hop, hops⟩ := List.forall_mem_cons.1 h
    rcases List.mem_cons.1 he with rfl | he
    · exact hop.entry_key _
    · exact ih hops he

/-- The numbers of a batch are added to those of the memtable. -/
theorem sequences_insertAll {heights : Heights} {w : WriteBatch} {s : ℕ} {ops : List WriteOp}
    (hw : Encodes w s ops) (hshort : ∀ op ∈ ops, op.Short) {m m' : Memtable} {es : List Entry}
    (hs : s + ops.length < 2 ^ 56) (h : w.insertAll m heights = .ok (m', es)) :
    es = WriteOp.entries s ops ∧ m'.sequences = m.sequences ++ es.map Entry.seq := by
  obtain ⟨rfl, hkeys⟩ := insertAll_keys heights hw hshort (by omega) h
  refine ⟨rfl, ?_⟩
  have hnew : ((WriteOp.entries s ops).map Entry.memtableKey).filterMap memtableKeySequence =
      (WriteOp.entries s ops).map Entry.seq := by
    rw [List.filterMap_map, ← List.filterMap_eq_map]
    apply List.filterMap_congr
    intro e he
    have := seq_of_mem_entries he
    exact memtableKeySequence_entry (key_lt_of_mem_entries hshort he) (by omega)
  rw [Memtable.sequences, hkeys, List.filterMap_append, hnew]
  rfl

/-- The numbers of a table are among those of the memtable it was built from. -/
theorem pairSequences_subset {m : Memtable} {it : MemtableIterator} {env : BuildEnv}
    {name : String} {meta₀ : FileMeta} {r : BuildResult} (hit : MemtableIterator.make m = .ok it)
    (h : buildTable env name meta₀ it = .ok r) : pairSequences r.added ⊆ m.sequences := by
  obtain ⟨iter, -, hit⟩ := Exec.bind_eq_ok.1 hit
  cases hit
  intro s hs
  obtain ⟨e, he, hes⟩ := List.mem_filterMap.1 hs
  obtain ⟨n, hn, hk⟩ := (buildTable_any h).1 e he
  refine List.mem_filterMap.2 ⟨n.key, List.mem_map_of_mem hn, ?_⟩
  rw [memtableKeySequence, hk]
  exact hes

/-! ### The invariant -/

namespace World

/-- `L` is the last sequence number: of the running database, or of the next one. -/
def LastIs (w : World) (L : ℕ) : Prop :=
  match w.db with
  | some db => db.lastSequence = L
  | none =>
    match w.disk.manifest with
    | none => L = 1
    | some content => ∃ metas rest, metas ≠ [] ∧ content = DBimpl.manifestBytes metas L ++ rest

/-- The sequence numbers in the memtable of the running database. -/
def memtableSequences (w : World) : List ℕ := w.db.elim [] fun db => db.memtable.sequences

/-- The sequence numbers in the immutable memtable of the running database. -/
def immutableSequences (w : World) : List ℕ := w.db.elim [] DBimpl.immutableSequences

/-- What every step keeps; `L` is the last sequence number. -/
structure Numbered (w : World) (L : ℕ) : Prop where
  last : w.LastIs L
  pos : 0 < L
  lt : L < 2 ^ 56
  increasing : (w.commits.flatten.map Entry.seq).Pairwise (· < ·)
  consecutive : ∀ es ∈ w.commits, ∃ s, es.map Entry.seq = List.range' s es.length
  le_last : ∀ e ∈ w.commits.flatten, e.seq ≤ L
  layered : Layered w.tableSequences w.immutableSequences w.memtableSequences L

theorem numbered_start : Numbered start 1 where
  last := rfl
  pos := by decide
  lt := by decide
  increasing := List.Pairwise.nil
  consecutive := by simp [start]
  le_last := by simp [start]
  layered := .of_archive (by simp [start, tableSequences])

variable {w : World} {L : ℕ} {db db' : DBimpl}

theorem Numbered.lastSequence (h : Numbered w L) (hdb : w.db = some db) : db.lastSequence = L := by
  have := h.last
  rwa [LastIs, hdb] at this

theorem Numbered.layers (h : Numbered w L) (hdb : w.db = some db) :
    Layered w.tableSequences db.immutableSequences db.memtable.sequences L := by
  have := h.layered
  rwa [immutableSequences, memtableSequences, hdb] at this

theorem Numbered.sequencesOrdered (h : Numbered w L) : SequencesOrdered w := by
  refine ⟨h.increasing, h.consecutive, ?_, ?_⟩
  · intro db hdb
    rw [h.lastSequence hdb]
    exact h.le_last
  · intro db hdb
    rw [h.lastSequence hdb]
    exact h.layers hdb

/-- A new database starts with the number that the last one has left. -/
theorem make_spec {u : Uninit} (hdb : w.db = none) (hlast : w.LastIs L) (hpos : 0 < L)
    (hlt : L < 2 ^ 56) (h : DBimpl.make u w.disk.manifest = .ok db) :
    db.lastSequence = L ∧ db.memtable = .make u.size ∧ db.immutableMemtable = none := by
  rw [LastIs, hdb] at hlast
  cases hman : w.disk.manifest with
  | none =>
    rw [hman] at h hlast
    cases h
    exact ⟨hlast.symm, rfl, rfl⟩
  | some content =>
    rw [hman] at h hlast
    obtain ⟨metas, rest, hne, rfl⟩ := hlast
    obtain ⟨-, read, -, rfl⟩ := DBimpl.readManifest_spec hne hpos (by omega) h
    exact ⟨rfl, rfl, rfl⟩

theorem Numbered.create {u : Uninit} (h : Numbered w L) (hdb : w.db = none)
    (hmake : DBimpl.make u w.disk.manifest = .ok db) : Numbered { w with db := some db } L := by
  obtain ⟨h1, h2, h3⟩ := make_spec hdb h.last h.pos h.lt hmake
  refine ⟨h1, h.pos, h.lt, h.increasing, h.consecutive, h.le_last, ?_⟩
  have hmem : db.memtable.sequences = [] := by rw [h2]; rfl
  have himm : db.immutableSequences = [] := by rw [DBimpl.immutableSequences, h3]; rfl
  change Layered w.tableSequences db.immutableSequences db.memtable.sequences L
  rw [hmem, himm]
  exact .of_archive h.layered.ts_le

/-- Making room keeps the layers apart. -/
theorem layered_makeRoom {size₀ : ℕ} {ts : List ℕ}
    (h : Layered ts db.immutableSequences db.memtable.sequences db.lastSequence)
    (hroom : db.makeRoomForWrite size₀ = .ok db') :
    Layered ts db'.immutableSequences db'.memtable.sequences db'.lastSequence := by
  rcases DBimpl.makeRoomForWrite_eq_ok.1 hroom with ⟨-, rfl⟩ | ⟨-, himm, -, rfl⟩
  · exact h
  · have hnil : db.immutableSequences = [] := by rw [DBimpl.immutableSequences, himm]; rfl
    rw [hnil] at h
    have hmem : (db.rotate size₀).memtable.sequences = [] := by
      rw [DBimpl.rotate_memtable]; rfl
    have himm' : (db.rotate size₀).immutableSequences = db.memtable.sequences := by
      rw [DBimpl.immutableSequences, DBimpl.rotate_immutableMemtable]; rfl
    rw [hmem, himm', DBimpl.rotate_lastSequence]
    exact h.rotate

theorem Numbered.write {ops : List WriteOp} {size₀ : ℕ} {heights : Heights} {batch : WriteBatch}
    {es : List Entry} (h : Numbered w L) (hdb : w.db = some db)
    (hbatch : WriteBatch.build ops = .ok batch) (hshort : ∀ op ∈ ops, op.Short)
    (hlt : db.lastSequence + ops.length < 2 ^ 56)
    (hwrite : db.write size₀ heights batch = .ok (db', es)) :
    Numbered { w with db := some db', commits := w.commits ++ [es] } (L + ops.length) := by
  obtain rfl : db.lastSequence = L := h.lastSequence hdb
  obtain ⟨db₁, m, _, hroom, hlast, hbatch', hins, rfl⟩ :=
    DBimpl.write_encodes (encodes_build hbatch) hlt hwrite
  have hlayers := layered_makeRoom (h.layers hdb) hroom
  rw [hlast] at hlayers
  obtain ⟨rfl, hseqs⟩ := sequences_insertAll hbatch' hshort hlt hins
  -- the numbers that the batch takes
  have hnew : ∀ s ∈ (WriteOp.entries db.lastSequence ops).map Entry.seq,
      db.lastSequence < s ∧ s ≤ db.lastSequence + ops.length := by
    intro s hs
    obtain ⟨e, he, rfl⟩ := List.mem_map.1 hs
    exact seq_of_mem_entries he
  refine ⟨rfl, Nat.add_pos_left h.pos _, hlt, ?_, ?_, ?_, ?_⟩
  · rw [List.flatten_append, List.map_append, List.pairwise_append]
    refine ⟨h.increasing, ?_, ?_⟩
    · rw [List.flatten_singleton, map_seq_entries]
      exact List.pairwise_lt_range'
    · intro s hs s' hs'
      obtain ⟨e, he, rfl⟩ := List.mem_map.1 hs
      rw [List.flatten_singleton] at hs'
      exact (h.le_last e he).trans_lt (hnew s' hs').1
  · intro es hes
    rcases List.mem_append.1 hes with hes | hes
    · exact h.consecutive es hes
    · rw [List.mem_singleton.1 hes]
      exact ⟨db.lastSequence + 1, by rw [map_seq_entries, length_entries]⟩
  · intro e he
    rw [List.flatten_append, List.flatten_singleton] at he
    rcases List.mem_append.1 he with he | he
    · exact (h.le_last e he).trans (Nat.le_add_right ..)
    · exact (hnew _ (List.mem_map_of_mem he)).2
  · change Layered w.tableSequences db₁.immutableSequences m.sequences _
    rw [hseqs]
    exact hlayers.push (Nat.le_add_right ..) hnew

theorem tableSequences_record (number : ℕ) (r : BuildResult) :
    (w.record number r).tableSequences = w.tableSequences ++ r.built.flatMap pairSequences :=
  List.flatMap_append

theorem built_subset {m : Memtable} {it : MemtableIterator} {env : BuildEnv} {name : String}
    {meta₀ : FileMeta} {r : BuildResult} (hit : MemtableIterator.make m = .ok it)
    (h : buildTable env name meta₀ it = .ok r) :
    r.built.flatMap pairSequences ⊆ m.sequences := by
  unfold BuildResult.built
  split_ifs
  · rw [List.flatMap_singleton]
    exact pairSequences_subset hit h
  · exact List.nil_subset _

theorem Numbered.backGroundCall {env : BuildEnv} {r : Option BuildResult} (h : Numbered w L)
    (hdb : w.db = some db) (hcall : db.backGroundCall env = .ok (db', r)) :
    Numbered (r.elim { w with db := some db' }
      (World.record { w with db := some db' } db.sstableNumber)) L := by
  have hlast := h.lastSequence hdb
  have hlayers := h.layers hdb
  rcases DBimpl.backGroundCall_cases hcall with ⟨-, rfl, rfl⟩ | ⟨db₁, r₁, rfl, hcomp, rfl⟩
  · exact ⟨hlast, h.pos, h.lt, h.increasing, h.consecutive, h.le_last, hlayers⟩
  · obtain ⟨imm, it, himm, hit, hbuild, rfl⟩ := DBimpl.compactMemtable_cases hcomp
    refine ⟨hlast, h.pos, h.lt, h.increasing, h.consecutive, h.le_last, ?_⟩
    have hsub := built_subset hit hbuild
    have himm' : db.immutableSequences = imm.sequences := by
      rw [DBimpl.immutableSequences, himm]; rfl
    change Layered (World.record _ _ _).tableSequences _ _ L
    rw [Option.elim_some, tableSequences_record]
    by_cases hok : r₁.status.ok = true
    · -- the table is built, and the immutable memtable is gone
      change Layered _ (Option.elim (if r₁.status.ok then none else db.immutableMemtable) []
        Memtable.sequences) db.memtable.sequences L
      rw [if_pos hok]
      exact hlayers.archive (himm' ▸ hsub)
    · change Layered _ (Option.elim (if r₁.status.ok then none else db.immutableMemtable) []
        Memtable.sequences) db.memtable.sequences L
      rw [if_neg hok]
      have hnil : r₁.built = [] := if_neg hok
      rw [hnil, List.flatMap_nil, List.append_nil]
      exact hlayers

theorem Numbered.destroy {env manifestEnv : BuildEnv} {r : BuildResult} {effect : FileEffect}
    (h : Numbered w L) (hdb : w.db = some db) (hs : manifestEnv.Succeeds)
    (hclose : db.close env manifestEnv = .ok (db', r, effect)) :
    Numbered (World.record { w with
      db := none
      disk := { w.disk with manifest := effect.apply w.disk.manifest } } db.sstableNumber r) L := by
  have hlast := h.lastSequence hdb
  have hlayers := h.layers hdb
  obtain ⟨-, db₁, hcomp, rfl, hdump⟩ := DBimpl.close_cases hclose
  obtain ⟨imm, it, himm, hit, hbuild, rfl⟩ := DBimpl.compactMemtable_cases hcomp
  have himm : db.memtable = imm := Option.some.inj himm
  have heffect := DBimpl.dumpManifest_spec hs hdump
  refine ⟨?_, h.pos, h.lt, h.increasing, h.consecutive, h.le_last, ?_⟩
  · change LastIs (World.mk ⟨effect.apply w.disk.manifest, _⟩ none _ _) L
    rw [heffect, ← hlast]
    exact ⟨_, _, List.append_ne_nil_of_right_ne_nil _ (List.cons_ne_nil _ _), rfl⟩
  · rw [tableSequences_record]
    exact hlayers.close (himm ▸ built_subset hit hbuild)

end World

/-- A step that keeps the sequence numbers in order. -/
theorem numbered_step {w w' : World} {a : Action} (h : ∃ L, w.Numbered L) (ha : KeepsSequence w a)
    (hstep : w.step a = .ok w') : ∃ L, w'.Numbered L := by
  obtain ⟨L, h⟩ := h
  rcases World.step_cases hstep with ⟨u, db, rfl, hdb, hmake, rfl⟩ |
    ⟨ops, size₀, heights, db, batch, db', es, rfl, hdb, hbatch, hwrite, rfl⟩ |
    ⟨env, db, db', r, rfl, hdb, -, hcall, rfl⟩ |
    ⟨env, manifestEnv, db, db', r, effect, rfl, hdb, -, hclose, rfl⟩
  · exact ⟨L, h.create hdb hmake⟩
  · exact ⟨_, h.write hdb hbatch ha.1 (ha.2 db hdb) hwrite⟩
  · exact ⟨L, h.backGroundCall hdb hcall⟩
  · exact ⟨L, h.destroy hdb ha hclose⟩

/-- **Sequence numbers order history** in every run of sessions whose operations have 32-bit
lengths, as long as `last_sequence_` stays below `2 ^ 56`. -/
theorem sequencesOrdered_of_run {as : List Action} {w : World}
    (hall : Machine.Along World.step KeepsSequence World.start as)
    (hrun : Machine.run World.step World.start as = .ok w) : SequencesOrdered w := by
  obtain ⟨L, h⟩ := Machine.run_invariant (fun _ _ _ h ha hstep => numbered_step h ha hstep)
    ⟨1, World.numbered_start⟩ hall hrun
  exact h.sequencesOrdered

/-- Two sessions; the first one compacts its first write and is destroyed after the second. -/
def twoSessions : List Action :=
  oneWrite ++ [.write [.put [98] [50]] 0 flatHeights, .backGroundCall .accepting,
    .destroy .accepting .accepting, .create ⟨0, false, 0⟩]

/-- The second session continues with the numbers of the first. -/
theorem sequencesOrdered_of_run_two_sessions :
    ∃ w, Machine.run World.step World.start twoSessions = .ok w ∧
      w.db.map DBimpl.lastSequence = some 3 ∧ SequencesOrdered w := by
  have hrun : (Machine.run World.step World.start twoSessions).map
      (fun w => w.db.map DBimpl.lastSequence) = .ok (some 3) := by
    decide +kernel
  obtain ⟨w, hw, hlast⟩ := Exec.exists_of_map hrun
  refine ⟨w, hw, hlast, sequencesOrdered_of_run (along_oneWrite_append trivial ?_ ?_) hw⟩
  · intro w₁ db₁ hdb₁ hlast₁
    exact ⟨by decide, World.lastSequence_lt hdb₁ hlast₁ (by decide)⟩
  · intro w₁ db₁ hdb₁ hlast₁
    exact ⟨⟨by decide, World.lastSequence_lt hdb₁ hlast₁ (by decide)⟩, fun _ _ =>
      ⟨trivial, fun _ _ =>
        ⟨BuildEnv.accepting_succeeds, fun _ _ => ⟨trivial, fun _ _ => trivial⟩⟩⟩⟩

/-! ### A key that is too long -/

/-- A key that starts like the rest of a batch. -/
def longKey (n : ℕ) : Bytes := 0 :: 7 :: 1 :: 0 :: 0 :: List.replicate n 0

/-- The length of a key of `2 ^ 32` bytes is written as zero. -/
theorem encode_longKey {n : ℕ} (hn : n + 5 = 2 ^ 32) :
    ∃ rest, (WriteOp.put (longKey n) []).encode = 1 :: 0 :: 0 :: 7 :: 1 :: 0 :: 0 :: rest := by
  have hlen : (longKey n).length = 2 ^ 32 := by
    rw [← hn, longKey]
    simp only [List.length_cons, List.length_replicate]
  have hcut : encodeVarint32 (2 ^ 32) = [0] := by decide
  refine ⟨List.replicate n 0 ++ [0], ?_⟩
  rw [WriteOp.encode, hlen, hcut, longKey]
  rfl

/-- A put of an empty key and an empty value. -/
theorem processMemtableKey_empty (n : ℕ) (rest : Bytes) :
    WriteBatch.processMemtableKey 1 n (0 :: 0 :: rest) =
      .ok (some ⟨[], n, [], .kTypeValue⟩, rest) := by
  have hshort : (WriteOp.put [] []).Short := by decide
  obtain ⟨keyType, tail, hbytes, hproc⟩ := processMemtableKey_encode hshort n rest
  cases hbytes
  exact hproc

/-- What `InsertAll` makes of the bytes of the key: two entries, with a gap between them. -/
theorem insertLoop_longKey (rest : Bytes) :
    ∃ m, WriteBatch.insertLoop flatHeights 3 0 1 (1 :: 0 :: 0 :: 7 :: 1 :: 0 :: 0 :: rest)
      (Memtable.make 0) =
        .ok (m, [⟨[], 2, [], .kTypeValue⟩, ⟨[], 4, [], .kTypeValue⟩]) := by
  obtain ⟨m₁, hm₁, hholds, -⟩ := (Holds.make 0).insert (e := ⟨[], 2, [], .kTypeValue⟩)
    (by decide) (by simp) (flatHeights.2 0).1 (flatHeights.2 0).2
  obtain ⟨m₂, hm₂, -, -⟩ := hholds.insert (e := ⟨[], 4, [], .kTypeValue⟩)
    (by decide) (by decide) (flatHeights.2 2).1 (flatHeights.2 2).2
  have hskip : WriteBatch.processMemtableKey 7 3 (1 :: 0 :: 0 :: rest) =
      .ok (none, 1 :: 0 :: 0 :: rest) := rfl
  have h2 : u64 (1 + 1) = 2 := rfl
  have h3 : u64 (2 + 1) = 3 := rfl
  have h4 : u64 (3 + 1) = 4 := rfl
  refine ⟨m₂, ?_⟩
  simp only [WriteBatch.insertLoop, h2, h3, h4, processMemtableKey_empty, hskip, Exec.ok_bind, hm₁,
    hm₂, Exec.pure_eq]

/-- The batch has three operations, and two entries are inserted. -/
theorem run_longKey {n : ℕ} (hn : n + 5 = 2 ^ 32) :
    ∃ w, Machine.run World.step World.start [.create ⟨0, false, 0⟩,
        .write [.put (longKey n) [], .delete [], .delete []] 0 flatHeights] = .ok w ∧
      w.commits = [[⟨[], 2, [], .kTypeValue⟩, ⟨[], 4, [], .kTypeValue⟩]] := by
  obtain ⟨batch, hbatch⟩ : ∃ w, WriteBatch.build
      [.put (longKey n) [], .delete [], .delete []] = .ok w := exists_build (by simp)
  obtain ⟨rest, hrest⟩ := encode_longKey hn
  have he := (encodes_build hbatch).setSequence (n := 1) (by decide)
  obtain ⟨m, hm⟩ := insertLoop_longKey
    (rest ++ [.delete [], .delete []].flatMap WriteOp.encode)
  have hins : (batch.setSequence 1).insertAll (Memtable.make 0) flatHeights =
      .ok (m, [⟨[], 2, [], .kTypeValue⟩, ⟨[], 4, [], .kTypeValue⟩]) := by
    rw [WriteBatch.insertAll, he.count, he.sequence, he.payload, List.flatMap_cons, hrest]
    exact hm
  have hroom : (DBimpl.fresh ⟨0, false, 0⟩).memtable.size < kMaxMemtableSize := by decide
  have hwrite : DBimpl.write 0 flatHeights batch (.fresh ⟨0, false, 0⟩) = .ok _ :=
    DBimpl.write_of_room rfl hroom hins
  exact ⟨_, Machine.run_cons_ok.2 ⟨_, rfl, Machine.run_cons_ok.2
    ⟨_, World.step_write rfl hbatch hwrite, rfl⟩⟩, rfl⟩

/-- With a key of `2 ^ 32` bytes, the entries of one batch get the numbers 2 and 4. -/
theorem sequencesOrdered_fails_long_key :
    ∃ w, Machine.run World.step World.start [.create ⟨0, false, 0⟩,
        .write [.put (longKey (2 ^ 32 - 5)) [], .delete [], .delete []] 0 flatHeights] = .ok w ∧
      ¬ SequencesOrdered w := by
  obtain ⟨w, hw, hcommits⟩ := run_longKey (n := 2 ^ 32 - 5) (by decide)
  refine ⟨w, hw, ?_⟩
  intro h
  obtain ⟨s, hs⟩ := h.consecutive _ (hcommits ▸ List.mem_singleton_self _)
  simp [List.range'] at hs
  omega

end KoishiDB
