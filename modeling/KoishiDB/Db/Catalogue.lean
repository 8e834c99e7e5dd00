import KoishiDB.Db.Flush
import KoishiDB.Disk.Flushable

/-!
# The catalogue of tables

`file_metas_` through compactions.  `CompactMemtable` pushes the new file meta before it calls
`BuildTable`.  When the build fails it takes back the number of the table and leaves the file meta
(`compactMemtable_never_same`).

When all file operations succeed, what is pushed is the file meta of a table, with a smallest and a
largest key.  But a memtable without entries, or one that is not `Flushable`, is not written: an
assertion fails, in `MemtableIterator::SeekToFirst` or in `TableBuilder::Add`.

* `catalogue_of_run` : the file metas of every reachable database, and when its next compaction is
  right.
-/

namespace KoishiDB

namespace DBimpl

variable {db db' : DBimpl} {env : BuildEnv} {r : BuildResult}

/-! ### Failed compactions -/

/-- The tables, the number of the next one and the immutable memtable are as before. -/
structure SameCatalogue (db db' : DBimpl) : Prop where
  fileMetas : db'.fileMetas = db.fileMetas
  sstableNumber : db'.sstableNumber = db.sstableNumber
  immutableMemtable : db'.immutableMemtable = db.immutableMemtable

/-- **A failed compaction** takes back the number of the table, and leaves a file meta in the
list. -/
theorem compactMemtable_failed (h : db.compactMemtable env = .ok (db', r))
    (hfail : r.status.ok = false) :
    db'.fileMetas = db.fileMetas ++ [{ r.fileMeta with number := db.sstableNumber }] ∧
      (db.sstableNumber < 2 ^ 64 → db'.sstableNumber = db.sstableNumber) ∧
      db'.immutableMemtable = db.immutableMemtable := by
  obtain ⟨imm, it, -, -, -, rfl⟩ := compactMemtable_cases h
  refine ⟨rfl, ?_, rfl⟩
  intro hlt
  simp only [hfail, Bool.not_false, ↓reduceIte, u64]
  omega

/-- **A failed compaction never leaves the catalogue as it was.**  For every state of the database
and wherever `BuildTable` fails. -/
theorem compactMemtable_never_same (h : db.compactMemtable env = .ok (db', r))
    (hfail : r.status.ok = false) : ¬ SameCatalogue db db' := by
  intro hsame
  have hmetas := hsame.fileMetas
  rw [(compactMemtable_failed h hfail).1] at hmetas
  simp at hmetas

/-- A disk without space. -/
def noSpace : BuildEnv := ⟨true, fun _ => .error 28 "No space left on device"⟩

/-- After two writes, the compaction of the first fails if the file cannot be opened, and if it
cannot be written. -/
theorem exists_failed {env : BuildEnv} (henv : env = ⟨false, badDescriptor⟩ ∨ env = noSpace) :
    ∃ w db db' r, Machine.run World.step World.start twoWrites = .ok w ∧ w.db = some db ∧
      db.compactMemtable env = .ok (db', r) ∧ r.status.ok = false := by
  have hrun : (Machine.run World.step World.start twoWrites >>= fun w => w.running >>= fun db =>
      db.compactMemtable env >>= fun x => .ok x.2.status.ok) = .ok false := by
    rcases henv with rfl | rfl <;> decide +kernel
  obtain ⟨w, hw, hrun⟩ := Exec.bind_eq_ok.1 hrun
  obtain ⟨db, hdb, hrun⟩ := Exec.bind_eq_ok.1 hrun
  obtain ⟨⟨db', r⟩, hcomp, hrun⟩ := Exec.bind_eq_ok.1 hrun
  exact ⟨w, db, db', r, hw, World.running_eq_ok.1 hdb, hcomp, Except.ok.inj hrun⟩

/-- The file of the table cannot be opened. -/
theorem compactMemtable_never_same_closed :
    ∃ db db' r, compactMemtable ⟨false, badDescriptor⟩ db = .ok (db', r) ∧ r.status.ok = false ∧
      ¬ SameCatalogue db db' := by
  obtain ⟨w, db, db', r, -, -, hcomp, hfail⟩ := exists_failed (.inl rfl)
  exact ⟨db, db', r, hcomp, hfail, compactMemtable_never_same hcomp hfail⟩

/-- The file of the table cannot be written. -/
theorem compactMemtable_keeps_failed_meta :
    ¬ ∀ (db : DBimpl) (env : BuildEnv) (db' : DBimpl) (r : BuildResult),
      db.compactMemtable env = .ok (db', r) → r.status.ok = false → SameCatalogue db db' := by
  intro h
  obtain ⟨w, db, db', r, -, -, hcomp, hfail⟩ := exists_failed (.inr rfl)
  have hmetas := (h db noSpace db' r hcomp hfail).fileMetas
  rw [(compactMemtable_failed hcomp hfail).1] at hmetas
  simp at hmetas

end DBimpl

/-! ### Tables of memtables -/

/-- The file meta of a table: its keys are internal keys, the smallest not behind the largest. -/
structure FileMeta.Real (m : FileMeta) : Prop where
  smallest : 8 ≤ m.smallestKey.length
  largest : 8 ≤ m.largestKey.length
  ordered : ∃ c ≤ 0, internalKeyCompare m.smallestKey m.largestKey = .ok c

/-- The memtable has entries, and they are `Flushable`. -/
def CanFlush (m : Memtable) : Prop := ∃ es, Holds m es ∧ es ≠ [] ∧ Flushable es

theorem Copies.real {es : List Entry} {r : BuildResult} (h : Copies es r) (number : ℕ) :
    FileMeta.Real { r.fileMeta with number := number } := by
  have hlen : ∀ p ∈ r.added, 8 ≤ p.1.length := by
    intro p hp
    obtain ⟨e, -, rfl⟩ := List.mem_map.1 (h.perm.mem_iff.1 hp)
    exact e.le_length_internalKey
  obtain ⟨x, hx, hsmallest⟩ := Option.map_eq_some_iff.1 h.smallest
  obtain ⟨y, hy, hlargest⟩ := Option.map_eq_some_iff.1 h.largest
  have hy := List.mem_of_getLast? hy
  refine ⟨?_, ?_, ?_⟩
  · change 8 ≤ r.fileMeta.smallestKey.length
    rw [← hsmallest]
    exact hlen x (List.mem_of_head? hx)
  · change 8 ≤ r.fileMeta.largestKey.length
    rw [← hlargest]
    exact hlen y hy
  · change ∃ c ≤ 0, internalKeyCompare r.fileMeta.smallestKey r.fileMeta.largestKey = .ok c
    rw [← hlargest]
    exact (h.between y hy).1

namespace DBimpl

variable {db db' : DBimpl} {env : BuildEnv} {r : BuildResult} {imm : Memtable} {es : List Entry}

/-- What `CompactMemtable` should do with the immutable memtable when all file operations succeed:
it returns, and adds a file meta if and only if the memtable has an entry. -/
def FlushRight (db : DBimpl) (imm : Memtable) : Prop :=
  db.immutableMemtable = some imm ∧ ∀ env : BuildEnv, env.Succeeds →
    ∃ db' r, db.compactMemtable env = .ok (db', r) ∧
      (imm.table.nodes ≠ [] → ∃ m, db'.fileMetas = db.fileMetas ++ [m]) ∧
      (imm.table.nodes = [] → db'.fileMetas = db.fileMetas)

/-- **When a compaction is right**: the memtable has entries and can be written. -/
theorem flushRight_iff (himm : db.immutableMemtable = some imm) (hes : Holds imm es) :
    db.FlushRight imm ↔ CanFlush imm := by
  constructor
  · rintro ⟨-, h⟩
    obtain ⟨db', r, hcomp, -⟩ := h .accepting BuildEnv.accepting_succeeds
    obtain ⟨imm', it, himm', hit, hbuild, -⟩ := compactMemtable_cases hcomp
    cases himm.symm.trans himm'
    exact ⟨es, hes, hes.flushable_of_buildTable hit BuildEnv.accepting_succeeds hbuild⟩
  · rintro ⟨es, hes, hne, hf⟩
    refine ⟨himm, ?_⟩
    intro env hs
    obtain ⟨it, -, hit, -⟩ := hes.yields
    obtain ⟨r, hr⟩ := hes.buildTable_of_flushable hne hit hf hs.1 (tableName db.sstableNumber) .make
    have hnodes : imm.table.nodes ≠ [] := by
      intro hnil
      have := congrArg List.length hes.nodes
      rw [hnil] at this
      exact hne (List.length_eq_zero_iff.1 (by simpa using this.symm))
    obtain ⟨db', hcomp⟩ : ∃ db', db.compactMemtable env = .ok (db', r) := by
      simp only [compactMemtable, himm, hit, Exec.ok_bind, hr, Exec.pure_eq]
      exact ⟨_, rfl⟩
    obtain ⟨-, -, -, -, -, rfl⟩ := compactMemtable_cases hcomp
    exact ⟨_, r, hcomp, fun _ => ⟨_, rfl⟩, fun hnil => absurd hnil hnodes⟩

/-! ### Runs -/

/-- What holds of a running database: its memtables hold entries, and its file metas are those of
tables. -/
structure Catalogued (db : DBimpl) : Prop extends db.HoldsBoth fun _ => True where
  real : ∀ m ∈ db.fileMetas, m.Real
  fits : ∀ m ∈ db.fileMetas, m.Fits
  number_lt : db.sstableNumber < 2 ^ 64
  pos : 0 < db.lastSequence
  lt : db.lastSequence < 2 ^ 56

namespace Catalogued

theorem write (h : Catalogued db) {size₀ : ℕ} {heights : Heights} {batch : WriteBatch}
    {ops : List WriteOp} {es : List Entry} (hbatch : WriteBatch.build ops = .ok batch)
    (hfits : ∀ op ∈ ops, op.Fits) (hlt : db.lastSequence + ops.length < 2 ^ 56)
    (hwrite : db.write size₀ heights batch = .ok (db', es)) : Catalogued db' := by
  obtain ⟨hboth, hlast, hmetas, hnumber⟩ := h.toHoldsBoth.write hbatch hfits
    (fun _ _ => trivial) hlt hwrite
  refine ⟨hboth, ?_, ?_, ?_, ?_, ?_⟩
  · rw [hmetas]; exact h.real
  · rw [hmetas]; exact h.fits
  · rw [hnumber]; exact h.number_lt
  · rw [hlast]; exact Nat.add_pos_left h.pos _
  · rw [hlast]; exact hlt

theorem compactMemtable (h : Catalogued db) (hs : env.Succeeds)
    (hc : db.compactMemtable env = .ok (db', r)) :
    Catalogued db' ∧ r.status = .OK ∧ db'.fileMetas ≠ [] := by
  obtain ⟨imm, it, himm, hit, hbuild, rfl⟩ := compactMemtable_cases hc
  obtain ⟨es, hes, -⟩ := h.immutable imm himm
  obtain ⟨hok, -, -, -, -, -, -, -, -, -, hfits⟩ := hes.buildTable_stores hit hs hbuild
  have hreal := (hes.copies hit hs.1 hbuild).real db.sstableNumber
  refine ⟨⟨⟨h.memtable, h.immutable⟩, ?_, ?_, ?_, h.pos, h.lt⟩, hok,
    List.append_ne_nil_of_right_ne_nil _ (List.cons_ne_nil _ _)⟩
  · exact List.forall_mem_append.2 ⟨h.real, List.forall_mem_singleton.2 hreal⟩
  · exact List.forall_mem_append.2
      ⟨h.fits, List.forall_mem_singleton.2 (hfits _ h.number_lt)⟩
  · dsimp only
    split_ifs
    · exact Nat.mod_lt _ (by decide)
    · exact Nat.mod_lt _ (by decide)

end Catalogued

end DBimpl

/-- The operations can be stored and have 56-bit sequence numbers, and file operations succeed. -/
def KeepsCatalogue (w : World) : Action → Prop
  | .create _ => True
  | .write ops _ _ => (∀ op ∈ ops, op.Fits) ∧
      ∀ db, w.db = some db → db.lastSequence + ops.length < 2 ^ 56
  | .backGroundCall env => env.Succeeds
  | .destroy env manifestEnv => env.Succeeds ∧ manifestEnv.Succeeds

/-- What every step keeps: the running database has a catalogue of tables, or the manifest has. -/
def CatalogueKept (w : World) : Prop :=
  match w.db with
  | some db => db.Catalogued
  | none => ∃ metas L, DBimpl.Lists w.disk.manifest metas L ∧ 0 < L ∧ L < 2 ^ 56 ∧
      (∀ m ∈ metas, m.Real) ∧ ∀ m ∈ metas, m.Fits

theorem CatalogueKept.running {w : World} {db : DBimpl} (h : CatalogueKept w)
    (hdb : w.db = some db) : db.Catalogued := by
  rwa [CatalogueKept, hdb] at h

theorem catalogued_create {w : World} {u : Uninit} {db : DBimpl} (h : CatalogueKept w)
    (hdb : w.db = none) (hmake : DBimpl.make u w.disk.manifest = .ok db) : db.Catalogued := by
  obtain ⟨-, hmem, himm, -⟩ := DBimpl.make_frame hmake
  rw [CatalogueKept, hdb] at h
  obtain ⟨metas, L, hlists, hpos, hlt, hreal, hfits⟩ := h
  obtain ⟨rfl, rfl, hnumber⟩ := DBimpl.make_of_lists hlists hpos (by omega) hfits hmake
  refine ⟨⟨?_, ?_⟩, hreal, hfits, hnumber, hpos, hlt⟩
  · rw [hmem]
    exact .make ..
  · rw [himm]
    simp

/-- A step that keeps the catalogue. -/
theorem catalogueKept_step {w w' : World} {a : Action} (h : CatalogueKept w)
    (ha : KeepsCatalogue w a) (hstep : w.step a = .ok w') : CatalogueKept w' := by
  rcases World.step_cases hstep with ⟨u, db, rfl, hdb, hmake, rfl⟩ |
    ⟨ops, size₀, heights, db, batch, db', es, rfl, hdb, hbatch, hwrite, rfl⟩ |
    ⟨env, db, db', r, rfl, hdb, -, hcall, rfl⟩ |
    ⟨env, manifestEnv, db, db', r, effect, rfl, hdb, -, hclose, rfl⟩
  · exact catalogued_create h hdb hmake
  · exact (h.running hdb).write hbatch ha.1 (ha.2 db hdb) hwrite
  · have hdb' := h.running hdb
    rcases DBimpl.backGroundCall_cases hcall with ⟨-, rfl, rfl⟩ | ⟨db₁, r₁, rfl, hcomp, rfl⟩
    · exact ⟨⟨hdb'.memtable, hdb'.immutable⟩, hdb'.real, hdb'.fits, hdb'.number_lt, hdb'.pos,
        hdb'.lt⟩
    · obtain ⟨h₁, hok, -⟩ := hdb'.compactMemtable ha hcomp
      refine ⟨⟨h₁.memtable, ?_⟩, h₁.real, h₁.fits, h₁.number_lt, h₁.pos, h₁.lt⟩
      intro imm himm
      rw [hok] at himm
      cases himm
  · obtain ⟨hs, hms⟩ := ha
    have hdb' := h.running hdb
    obtain ⟨-, db₁, hcomp, rfl, hdump⟩ := DBimpl.close_cases hclose
    have hretire : db.retireMemtable.Catalogued :=
      ⟨hdb'.toHoldsBoth.retire, hdb'.real, hdb'.fits, hdb'.number_lt, hdb'.pos, hdb'.lt⟩
    obtain ⟨h₁, -, hne⟩ := hretire.compactMemtable hs hcomp
    rw [DBimpl.dumpManifest_spec hms hdump]
    exact ⟨_, _, .inr ⟨hne, _, rfl⟩, h₁.pos, h₁.lt, h₁.real, h₁.fits⟩

theorem catalogued_of_run {as : List Action} {w : World} {db : DBimpl}
    (hall : Machine.Along World.step KeepsCatalogue World.start as)
    (hrun : Machine.run World.step World.start as = .ok w) (hdb : w.db = some db) :
    db.Catalogued := by
  have hstart : CatalogueKept World.start :=
    ⟨[], 1, .inl ⟨rfl, rfl, rfl⟩, by decide, by decide, by simp, by simp⟩
  exact (Machine.run_invariant (fun _ _ _ h ha hstep => catalogueKept_step h ha hstep) hstart
    hall hrun).running hdb

/-- **The catalogue of every reachable database.**  In every run of sessions in which operations can
be stored and file operations succeed: every file meta in the list is that of a table, and the next
`CompactMemtable` call, by a thread or by the destructor, is right if and only if the memtable that
it takes has entries and they are `Flushable`. -/
theorem catalogue_of_run {as : List Action} {w : World} {db : DBimpl}
    (hall : Machine.Along World.step KeepsCatalogue World.start as)
    (hrun : Machine.run World.step World.start as = .ok w) (hdb : w.db = some db) :
    (∀ m ∈ db.fileMetas, m.Real) ∧
      (db.retireMemtable.FlushRight db.memtable ↔ CanFlush db.memtable) ∧
      ∀ imm, db.immutableMemtable = some imm → (db.FlushRight imm ↔ CanFlush imm) := by
  have h := catalogued_of_run hall hrun hdb
  refine ⟨h.real, ?_, ?_⟩
  · obtain ⟨es, hes, -⟩ := h.memtable
    exact DBimpl.flushRight_iff rfl hes
  · intro imm himm
    obtain ⟨es, hes, -⟩ := h.immutable imm himm
    exact DBimpl.flushRight_iff himm hes

/-- A session with two writes, the first of which is written to a table. -/
def oneTableWritten : List Action :=
  oneWrite ++ [.write [.put [98] [50]] 0 flatHeights, .backGroundCall .accepting]

/-- The database has a table then, and the memtable with the second write can be written. -/
theorem catalogue_of_run_oneTableWritten :
    ∃ w db, Machine.run World.step World.start oneTableWritten = .ok w ∧ w.db = some db ∧
      db.fileMetas.length = 1 ∧ (∀ m ∈ db.fileMetas, m.Real) ∧
      db.retireMemtable.FlushRight db.memtable := by
  have hrun : (Machine.run World.step World.start oneTableWritten).map (fun w => w.db.map fun db =>
      (db.fileMetas.length, db.memtable.table.nodes.length)) = .ok (some (1, 1)) := by
    decide +kernel
  obtain ⟨w, hw, hdata⟩ := Exec.exists_of_map hrun
  obtain ⟨db, hdb, hdata⟩ := Option.map_eq_some_iff.1 hdata
  obtain ⟨hmetas, hnodes⟩ := Prod.mk.inj hdata
  have hall : Machine.Along World.step KeepsCatalogue World.start oneTableWritten := by
    refine along_oneWrite_append trivial ?_ ?_
    · intro w₁ db₁ hdb₁ hlast₁
      exact ⟨by decide, World.lastSequence_lt hdb₁ hlast₁ (by decide)⟩
    · intro w₁ db₁ hdb₁ hlast₁
      exact ⟨⟨by decide, World.lastSequence_lt hdb₁ hlast₁ (by decide)⟩,
        fun _ _ => ⟨BuildEnv.accepting_succeeds, fun _ _ => trivial⟩⟩
  obtain ⟨hreal, hiff, -⟩ := catalogue_of_run hall hw hdb
  refine ⟨w, db, hw, hdb, hmetas, hreal, hiff.2 ?_⟩
  obtain ⟨es, hes, -⟩ := (catalogued_of_run hall hw hdb).memtable
  have hlen := congrArg List.length hes.nodes
  rw [List.length_map, List.length_map, hnodes] at hlen
  obtain ⟨e, rfl⟩ := List.length_eq_one_iff.1 hlen.symm
  exact ⟨[e], hes, by simp, by simp, [], e, .refl _, by simp, by decide⟩

/-- A database that was opened and not written to: the compaction of the destructor fails an
assertion. -/
theorem catalogue_fails_unwritten :
    ¬ ∀ (as : List Action) (w : World) (db : DBimpl),
      Machine.Along World.step KeepsCatalogue World.start as →
      Machine.run World.step World.start as = .ok w → w.db = some db →
        db.retireMemtable.FlushRight db.memtable := by
  intro h
  have hrun : Machine.run World.step World.start [.create ⟨0, false, 0⟩] =
      .ok { World.start with db := some (.fresh ⟨0, false, 0⟩) } := rfl
  have hall : Machine.Along World.step KeepsCatalogue World.start [.create ⟨0, false, 0⟩] :=
    ⟨trivial, fun _ _ => trivial⟩
  obtain ⟨-, hflush⟩ := h _ _ _ hall hrun rfl
  obtain ⟨db', r, hcomp, -⟩ := hflush .accepting BuildEnv.accepting_succeeds
  have hfails : ((DBimpl.fresh ⟨0, false, 0⟩).retireMemtable.compactMemtable
      .accepting).toOption.isSome = false := by decide +kernel
  rw [hcomp] at hfails
  cases hfails

end KoishiDB
