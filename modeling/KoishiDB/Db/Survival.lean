import KoishiDB.Db.Manifest
import KoishiDB.Db.Session
import KoishiDB.Memory.AnyBatch

/-!
# What a write can run into

The results about the contents of the memtables need sequence numbers below `2 ^ 56` and files that
can be written.  That a call does not crash needs neither.  In every run, with restarts, failing
file operations and sequence numbers that have wrapped around, the memtables are sound
(`KoishiDB.Memory.AnyBatch`), so that a `Write` of operations that fit does one of two things
(`write_returns_or_blocks`): it returns, or it waits for room that nobody will make, since it waits
with `rwlock_` locked.  A `Get` can go wrong in the table files only (`get_fails_only_in_tables`).
-/

namespace KoishiDB

theorem WriteOp.Fits.keyFits {op : WriteOp} (h : op.Fits) (n : ℕ) :
    KeyFits (op.entry n).userKey (op.entry n).value := by
  cases op with
  | put k v => exact KeyFits.mono h (length_cString_le k) (length_cString_le v)
  | delete k => exact KeyFits.mono h (length_cString_le k) (Nat.le_refl _)

/-- The loop of `InsertAll` over operations that fit returns, whatever the sequence numbers are. -/
theorem insertLoop_returns (heights : Heights) {ops : List WriteOp} (hfit : ∀ op ∈ ops, op.Fits)
    {m : Memtable} (hm : Sound m) (i number : ℕ) :
    ∃ m' es, WriteBatch.insertLoop heights ops.length i number (ops.flatMap WriteOp.encode) m =
      .ok (m', es) ∧ Sound m' := by
  induction ops generalizing m i number with
  | nil => exact ⟨m, [], rfl, hm⟩
  | cons op ops ih =>
    obtain ⟨hop, hops⟩ := List.forall_mem_cons.1 hfit
    obtain ⟨m₁, hins, hm₁⟩ := hm.insert (hop.keyFits (u64 (number + 1))) (heights.2 i).1
      (heights.2 i).2
    obtain ⟨m', es, hloop, hm'⟩ := ih hops hm₁ (i + 1) (u64 (number + 1))
    obtain ⟨keyType, tail, hbytes, hproc⟩ := processMemtableKey_encode hop.short
      (u64 (number + 1)) (ops.flatMap WriteOp.encode)
    refine ⟨m', op.entry (u64 (number + 1)) :: es, ?_, hm'⟩
    simp only [List.length_cons, List.flatMap_cons, hbytes, WriteBatch.insertLoop, hproc,
      Exec.ok_bind, hins, hloop, Exec.pure_eq]

/-- **`InsertAll`** of a batch of operations that fit returns, under any sequence number. -/
theorem insertAll_returns (heights : Heights) {ops : List WriteOp} {batch : WriteBatch}
    (hbatch : WriteBatch.build ops = .ok batch) (hfit : ∀ op ∈ ops, op.Fits) {m : Memtable}
    (hm : Sound m) (number : ℕ) :
    ∃ m' es, (batch.setSequence number).insertAll m heights = .ok (m', es) ∧ Sound m' := by
  have henc := encodes_build hbatch
  rw [WriteBatch.insertAll, WriteBatch.setSequence_count, henc.count, Int.toNat_natCast,
    WriteBatch.setSequence_payload, henc.payload]
  exact insertLoop_returns heights hfit hm 0 _

namespace DBimpl

/-- Nobody is in the queue and the memtables are sound. -/
structure Sound (db : DBimpl) : Prop where
  writers : db.writers = []
  memtable : KoishiDB.Sound db.memtable
  immutable : ∀ imm, db.immutableMemtable = some imm → KoishiDB.Sound imm

/-- There is no room, and none is made: the memtable is full, and the immutable one is still there,
or the size of the new one happens to start high. -/
def NoRoom (db : DBimpl) (size₀ : ℕ) : Prop :=
  kMaxMemtableSize ≤ db.memtable.size ∧
    (db.immutableMemtable.isSome = true ∨ kMaxMemtableSize ≤ u64 size₀)

variable {db db' : DBimpl} {size₀ : ℕ}

/-- `MakeRoomForWrite` waits exactly when there is no room. -/
theorem makeRoomForWrite_noRoom (h : db.NoRoom size₀) :
    db.makeRoomForWrite size₀ = .error .blocked := by
  obtain ⟨hfull, hor⟩ := h
  have hnot : ¬ db.memtable.size < kMaxMemtableSize := Nat.not_lt.2 hfull
  cases himm : db.immutableMemtable with
  | some imm => simp [makeRoomForWrite, makeRoomLoop, Memtable.estimatedSize, hnot, himm]
  | none =>
    have hsize : ¬ u64 size₀ < kMaxMemtableSize := by
      rcases hor with h | h
      · rw [himm] at h
        cases h
      · exact Nat.not_lt.2 h
    simp [makeRoomForWrite, makeRoomLoop, Memtable.estimatedSize, hnot, himm, Memtable.make, hsize]

/-- Otherwise it makes room. -/
theorem exists_makeRoomForWrite (h : ¬ db.NoRoom size₀) :
    ∃ db₁, db.makeRoomForWrite size₀ = .ok db₁ := by
  by_cases hroom : db.memtable.size < kMaxMemtableSize
  · exact ⟨db, makeRoomForWrite_eq_ok.2 (.inl ⟨hroom, rfl⟩)⟩
  · have hfull := Nat.not_lt.1 hroom
    have himm : db.immutableMemtable = none := by
      cases himm : db.immutableMemtable with
      | none => rfl
      | some imm => exact absurd ⟨hfull, .inl (by rw [himm]; rfl)⟩ h
    have hsize : u64 size₀ < kMaxMemtableSize := Nat.not_le.1 fun hs => h ⟨hfull, .inr hs⟩
    exact ⟨_, makeRoomForWrite_eq_ok.2 (.inr ⟨hfull, himm, hsize, rfl⟩)⟩

/-- Making room keeps the memtables sound. -/
theorem Sound.makeRoomForWrite (hdb : db.Sound) (h : db.makeRoomForWrite size₀ = .ok db') :
    db'.Sound := by
  rcases makeRoomForWrite_eq_ok.1 h with ⟨-, rfl⟩ | ⟨-, -, -, rfl⟩
  · exact hdb
  · refine ⟨by simpa using hdb.writers, ?_, ?_⟩
    · rw [rotate_memtable]
      exact sound_make _
    · intro imm himm
      rw [rotate_immutableMemtable] at himm
      cases himm
      exact hdb.memtable

/-- **A `Write` blocks or returns**, and what it returns is sound. -/
theorem Sound.write (hdb : db.Sound) {ops : List WriteOp} {batch : WriteBatch}
    (hbatch : WriteBatch.build ops = .ok batch) (hfit : ∀ op ∈ ops, op.Fits) (size₀ : ℕ)
    (heights : Heights) :
    (db.NoRoom size₀ ∧ db.write size₀ heights batch = .error .blocked) ∨
      (¬ db.NoRoom size₀ ∧
        ∃ db' es, db.write size₀ heights batch = .ok (db', es) ∧ db'.Sound) := by
  have hqueue : ¬ db.writers ≠ [] := not_not.2 hdb.writers
  by_cases hroom : db.NoRoom size₀
  · refine .inl ⟨hroom, ?_⟩
    have hblocked : { db with writers := db.writers ++ [Writer.mk batch false] }.makeRoomForWrite
        size₀ = .error .blocked := makeRoomForWrite_noRoom hroom
    rw [DBimpl.write, if_neg hqueue]
    simp only [Exec.pure_eq, hblocked, Exec.error_bind]
  · refine .inr ⟨hroom, ?_⟩
    have hroom' : ¬ { db with writers := db.writers ++ [Writer.mk batch false] }.NoRoom size₀ :=
      hroom
    obtain ⟨db₁, hmake⟩ := exists_makeRoomForWrite hroom'
    obtain ⟨hws, hmake'⟩ := makeRoomForWrite_writers hmake
    rw [hdb.writers, List.nil_append] at hws
    have hdb₁ := hdb.makeRoomForWrite hmake'
    obtain ⟨m, es, hins, hm⟩ := insertAll_returns heights hbatch hfit hdb₁.memtable
      db₁.lastSequence
    have hreturns : ∃ db', db.write size₀ heights batch = .ok (db', es) ∧ db'.memtable = m ∧
        db'.writers = [] ∧ db'.immutableMemtable = db₁.immutableMemtable := by
      rw [DBimpl.write, if_neg hqueue]
      simp only [Exec.pure_eq, Exec.ok_bind, hmake, commit, hws, buildWriteBatchGroup, groupLoop,
        hins]
      exact ⟨_, rfl, rfl, rfl, rfl⟩
    obtain ⟨db', hok, hmem, hqueue', himm⟩ := hreturns
    refine ⟨db', es, hok, hqueue', by rw [hmem]; exact hm, ?_⟩
    rw [himm]
    exact hdb₁.immutable

/-- A compaction keeps the memtables sound, whatever happens to the file. -/
theorem Sound.backGroundCall (hdb : db.Sound) {env : BuildEnv} {r : Option BuildResult}
    (h : db.backGroundCall env = .ok (db', r)) : db'.Sound := by
  rcases backGroundCall_cases h with ⟨-, -, rfl⟩ | ⟨db₁, r₁, -, hcomp, rfl⟩
  · exact ⟨hdb.writers, hdb.memtable, hdb.immutable⟩
  · obtain ⟨imm, it, -, -, -, rfl⟩ := compactMemtable_cases hcomp
    refine ⟨hdb.writers, hdb.memtable, ?_⟩
    intro imm' himm'
    dsimp only at himm'
    split_ifs at himm'
    exact hdb.immutable imm' himm'

end DBimpl

/-! ### Runs -/

/-- The operations that are written fit. -/
def WritesFit (_ : World) : Action → Prop
  | .write ops _ _ => ∀ op ∈ ops, op.Fits
  | _ => True

theorem sound_step {w w' : World} {a : Action} (h : ∀ db, w.db = some db → db.Sound)
    (ha : WritesFit w a) (hstep : w.step a = .ok w') : ∀ db, w'.db = some db → db.Sound := by
  rcases World.step_cases hstep with ⟨u, db, rfl, -, hmake, rfl⟩ |
    ⟨ops, size₀, heights, db, batch, db', es, rfl, hdb, hbatch, hwrite, rfl⟩ |
    ⟨env, db, db', r, rfl, hdb, -, hcall, rfl⟩ |
    ⟨env, manifestEnv, db, db', r, effect, rfl, -, -, -, rfl⟩
  · rintro _ ⟨⟩
    obtain ⟨hws, hmem, himm, -⟩ := DBimpl.make_frame hmake
    refine ⟨hws, ?_, ?_⟩
    · rw [hmem]
      exact sound_make _
    · intro imm h'
      rw [himm] at h'
      cases h'
  · rintro _ ⟨⟩
    rcases (h db hdb).write hbatch ha size₀ heights with ⟨-, hb⟩ | ⟨-, db₁, es₁, hw, hs⟩
    · rw [hb] at hwrite
      cases hwrite
    · rw [hw] at hwrite
      cases hwrite
      exact hs
  · rw [World.db_elim_record]
    rintro _ ⟨⟩
    exact (h db hdb).backGroundCall hcall
  · rintro _ ⟨⟩

theorem sound_of_run {as : List Action} {w : World}
    (hall : Machine.Along World.step WritesFit World.start as)
    (hrun : Machine.run World.step World.start as = .ok w) : ∀ db, w.db = some db → db.Sound :=
  Machine.run_invariant (fun _ _ _ h ha hstep => sound_step h ha hstep) (fun _ h => by cases h)
    hall hrun

/-- **A write returns or waits, it never crashes.**  In every state that is reached by runs of
writes that fit, compactions, restarts and failing file operations in any order, a further write
returns unless the memtable is full and the immutable one is still there (or the new memtable starts
with a high size), and then it waits.  There is no other outcome: no assertion fails, no null
pointer is followed and no loop runs on, also when sequence numbers repeat. -/
theorem write_returns_or_blocks {as : List Action} {w : World} {db : DBimpl}
    (hall : Machine.Along World.step WritesFit World.start as)
    (hrun : Machine.run World.step World.start as = .ok w) (hdb : w.db = some db)
    {ops : List WriteOp} {batch : WriteBatch} (hbatch : WriteBatch.build ops = .ok batch)
    (hfit : ∀ op ∈ ops, op.Fits) (size₀ : ℕ) (heights : Heights) :
    ((∃ r, db.write size₀ heights batch = .ok r) ↔ ¬ db.NoRoom size₀) ∧
      ∀ f, db.write size₀ heights batch = .error f → f = .blocked := by
  rcases (sound_of_run hall hrun db hdb).write hbatch hfit size₀ heights with
    ⟨hroom, hblocked⟩ | ⟨hroom, db', es, hok, -⟩
  · rw [hblocked]
    refine ⟨⟨?_, fun h => absurd hroom h⟩, ?_⟩
    · rintro ⟨r, hr⟩
      cases hr
    · rintro f ⟨⟩
      rfl
  · rw [hok]
    refine ⟨⟨fun _ => hroom, fun _ => ⟨_, rfl⟩⟩, ?_⟩
    rintro f ⟨⟩

theorem along_writesFit_oneWrite : Machine.Along World.step WritesFit World.start oneWrite := by
  have hfit : ∀ op ∈ [WriteOp.put [97] [49]], op.Fits := by decide
  exact ⟨trivial, fun _ _ => ⟨hfit, fun _ _ => trivial⟩⟩

theorem write_returns_or_blocks_oneWrite :
    ∃ w db batch, Machine.run World.step World.start oneWrite = .ok w ∧ w.db = some db ∧
      WriteBatch.build [.put [98] [50]] = .ok batch ∧
      ((∃ r, db.write 0 flatHeights batch = .ok r) ↔ ¬ db.NoRoom 0) := by
  obtain ⟨w, db, hrun, hdb, -⟩ := run_oneWrite
  have hbuild : ∃ batch, WriteBatch.build [.put [98] [50]] = .ok batch := exists_build (by decide)
  obtain ⟨batch, hbatch⟩ := hbuild
  exact ⟨w, db, batch, hrun, hdb, hbatch,
    (write_returns_or_blocks along_writesFit_oneWrite hrun hdb hbatch (by decide) 0 flatHeights).1⟩

/-- **A read can only crash in a table file.**  In every such state and for every key that fits, a
`Get` goes wrong exactly if neither memtable has the key and the search of the table files goes
wrong: searching the memtables returns. -/
theorem get_fails_only_in_tables {as : List Action} {w : World} {db : DBimpl}
    (hall : Machine.Along World.step WritesFit World.start as)
    (hrun : Machine.run World.step World.start as = .ok w) (hdb : w.db = some db) {u : Bytes}
    (hu : KeyFits u []) (files : ℕ → Option Bytes) (f : Fault) :
    db.get files u = .error f ↔ db.memtable.get (DBimpl.seekKey u) = .ok none ∧
      db.searchImmutable u = .ok none ∧
      DBimpl.searchFiles files (createInternalKey u UINT64_MAX kTypeSeek) db.fileMetas =
        .error f := by
  have hsound := sound_of_run hall hrun db hdb
  obtain ⟨young, hyoung⟩ := hsound.memtable.get UINT64_MAX kTypeSeek hu
  have hmem : db.memtable.get (DBimpl.seekKey u) = .ok young := hyoung
  obtain ⟨old, hold⟩ : ∃ o, db.searchImmutable u = .ok o := by
    unfold DBimpl.searchImmutable
    split
    · rename_i imm himm
      exact (hsound.immutable imm himm).get UINT64_MAX kTypeSeek hu
    · exact ⟨none, rfl⟩
  rw [DBimpl.get, hmem, hold]
  cases young with
  | some value =>
    simp only [Exec.ok_bind, Exec.pure_eq, reduceCtorEq, Except.ok.injEq, false_and]
  | none =>
    cases old with
    | some value =>
      simp only [Exec.ok_bind, Exec.pure_eq, reduceCtorEq, Except.ok.injEq, false_and, and_false]
    | none => simp only [Exec.ok_bind, true_and]

/-- A key that has not been written, after one write. -/
theorem get_fails_only_in_tables_oneWrite :
    ∃ w db, Machine.run World.step World.start oneWrite = .ok w ∧ w.db = some db ∧
      (db.get (fun _ => none) [98] = .error .nullptr ↔
        db.memtable.get (DBimpl.seekKey [98]) = .ok none ∧ db.searchImmutable [98] = .ok none ∧
        DBimpl.searchFiles (fun _ => none) (createInternalKey [98] UINT64_MAX kTypeSeek)
          db.fileMetas = .error .nullptr) := by
  obtain ⟨w, db, hrun, hdb, -⟩ := run_oneWrite
  exact ⟨w, db, hrun, hdb,
    get_fails_only_in_tables along_writesFit_oneWrite hrun hdb (by decide) (fun _ => none) .nullptr⟩

end KoishiDB
