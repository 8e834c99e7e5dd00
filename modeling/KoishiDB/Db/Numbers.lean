import KoishiDB.Db.Session

/-!
# The numbers of table files

`sstable_number_` is meant to be the next number that no table has.  It starts at one and every
successful compaction takes one; but `ReadManifest` sets it to the number of file metas, which is
the number of the *last* table and not the next one.  So the numbers are fresh as long as no
database is created from a manifest (`numbersFresh_of_run`), and are not directly after the first
time this happens (`numbersFresh_fails_reopened`).
-/

namespace KoishiDB

/-- The numbers of the tables are distinct and below the next number, so no table that is listed
is opened for writing. -/
structure NumbersFresh (db : DBimpl) : Prop where
  nodup : (db.fileMetas.map FileMeta.number).Nodup
  lt : ∀ m ∈ db.fileMetas, m.number < db.sstableNumber
  next_notMem : db.sstableNumber ∉ db.fileMetas.map FileMeta.number

/-- The action does not read a manifest, and does not exhaust the 64-bit numbers. -/
def KeepsNumbers (w : World) : Action → Prop
  | .create _ => w.disk.manifest = none
  | .write _ _ _ => True
  | .backGroundCall _ => ∀ db, w.db = some db → db.sstableNumber + 1 < 2 ^ 64
  | .destroy _ _ => True

namespace NumbersFresh

variable {db db' : DBimpl}

theorem of_lt (hnodup : (db.fileMetas.map FileMeta.number).Nodup)
    (hlt : ∀ m ∈ db.fileMetas, m.number < db.sstableNumber) : NumbersFresh db := by
  refine ⟨hnodup, hlt, ?_⟩
  intro hmem
  obtain ⟨m, hm, heq⟩ := List.mem_map.1 hmem
  exact absurd heq (hlt m hm).ne

/-- Only the list of tables and the next number matter. -/
theorem congr (h : NumbersFresh db) (hm : db'.fileMetas = db.fileMetas)
    (hn : db'.sstableNumber = db.sstableNumber) : NumbersFresh db' :=
  of_lt (by rw [hm]; exact h.nodup) (by rw [hm, hn]; exact h.lt)

theorem fresh (u : Uninit) : NumbersFresh (.fresh u) :=
  of_lt List.nodup_nil fun m hm => by cases hm

/-- A write does not touch the tables. -/
theorem write (h : NumbersFresh db) {size₀ : ℕ} {heights : Heights} {batch : WriteBatch}
    {es : List Entry} (hw : db.write size₀ heights batch = .ok (db', es)) : NumbersFresh db' := by
  obtain ⟨-, db₁, m, hroom, -, rfl⟩ := DBimpl.write_cases hw
  rcases DBimpl.makeRoomForWrite_eq_ok.1 hroom with ⟨-, rfl⟩ | ⟨-, -, -, rfl⟩
  · exact h.congr rfl rfl
  · exact h.congr (DBimpl.rotate_fileMetas ..) (DBimpl.rotate_sstableNumber ..)

/-- A successful compaction takes the next number. -/
theorem compactMemtable (h : NumbersFresh db) {env : BuildEnv} {r : BuildResult}
    (hs : env.Succeeds) (hlt : db.sstableNumber + 1 < 2 ^ 64)
    (hc : db.compactMemtable env = .ok (db', r)) : NumbersFresh db' := by
  obtain ⟨imm, it, -, -, hbuild, rfl⟩ := DBimpl.compactMemtable_cases hc
  have hok : r.status = .OK := (buildTable_any hbuild).2 hs
  have hnumber : (if !r.status.ok then u64 (u64 (db.sstableNumber + 1) + (2 ^ 64 - 1))
      else u64 (db.sstableNumber + 1)) = db.sstableNumber + 1 := by
    rw [hok, if_neg (by decide), u64_of_lt hlt]
  refine of_lt ?_ ?_
  · rw [List.map_append, List.nodup_append]
    refine ⟨h.nodup, List.nodup_singleton _, ?_⟩
    intro a ha b hb
    rw [List.mem_singleton.1 hb]
    rintro rfl
    exact h.next_notMem ha
  · intro m hm
    dsimp only
    rw [hnumber]
    rcases List.mem_append.1 hm with hm | hm
    · exact (h.lt m hm).trans (Nat.lt_succ_self _)
    · rw [List.mem_singleton.1 hm]
      exact Nat.lt_succ_self _

end NumbersFresh

/-- A step that keeps the numbers fresh. -/
theorem numbersFresh_step {w w' : World} {a : Action}
    (h : ∀ db, w.db = some db → NumbersFresh db) (ha : a.Succeeds ∧ KeepsNumbers w a)
    (hstep : w.step a = .ok w') : ∀ db, w'.db = some db → NumbersFresh db := by
  rcases World.step_cases hstep with ⟨u, db, rfl, -, hmake, rfl⟩ |
    ⟨ops, size₀, heights, db, batch, db', es, rfl, hdb, -, hwrite, rfl⟩ |
    ⟨env, db, db', r, rfl, hdb, -, hcall, rfl⟩ |
    ⟨env, manifestEnv, db, db', r, effect, rfl, -, -, -, rfl⟩
  · have hman : w.disk.manifest = none := ha.2
    rw [hman] at hmake
    cases hmake
    rintro _ ⟨⟩
    exact .fresh u
  · rintro _ ⟨⟩
    exact (h db hdb).write hwrite
  · rw [World.db_elim_record]
    rintro _ ⟨⟩
    rcases DBimpl.backGroundCall_cases hcall with ⟨-, -, rfl⟩ | ⟨db₁, r₁, -, hcomp, rfl⟩
    · exact (h db hdb).congr rfl rfl
    · exact ((h db hdb).compactMemtable ha.1 (ha.2 db hdb) hcomp).congr rfl rfl
  · rintro _ ⟨⟩

/-- **Table numbers are not reused** in any run of sessions with successful file operations in
which no database is created from an existing manifest: in every state reached, the numbers of the
tables are distinct and below the next number. -/
theorem numbersFresh_of_run {as : List Action} {w : World}
    (hall : Machine.Along World.step (fun w a => a.Succeeds ∧ KeepsNumbers w a) World.start as)
    (hrun : Machine.run World.step World.start as = .ok w) :
    ∀ db, w.db = some db → NumbersFresh db :=
  Machine.run_invariant (fun _ _ _ h ha hstep => numbersFresh_step h ha hstep)
    (fun _ h => by cases h) hall hrun

/-- After the compaction of the first write, one table is listed. -/
theorem numbersFresh_of_run_two_writes :
    ∃ w db, Machine.run World.step World.start (twoWrites ++ [.backGroundCall .accepting]) = .ok w ∧
      w.db = some db ∧ db.fileMetas.map FileMeta.number = [1] ∧ NumbersFresh db := by
  have hrun : (Machine.run World.step World.start
      (twoWrites ++ [.backGroundCall .accepting])).map
      (fun w => w.db.map fun db => db.fileMetas.map FileMeta.number) = .ok (some [1]) := by
    decide +kernel
  have hbefore : (Machine.run World.step World.start twoWrites).map
      (fun w => w.db.map DBimpl.sstableNumber) = .ok (some 1) := by
    decide +kernel
  obtain ⟨w, hw, hdata⟩ := Exec.exists_of_map hrun
  obtain ⟨db, hdb, hnumbers⟩ := Option.map_eq_some_iff.1 hdata
  obtain ⟨w₁, hw₁, hdata₁⟩ := Exec.exists_of_map hbefore
  obtain ⟨db₁, hdb₁, hnumber₁⟩ := Option.map_eq_some_iff.1 hdata₁
  refine ⟨w, db, hw, hdb, hnumbers, numbersFresh_of_run (Machine.along_append.2 ⟨?_, ?_⟩) hw db hdb⟩
  · exact ⟨⟨trivial, rfl⟩, fun _ _ => ⟨⟨trivial, trivial⟩, fun _ _ =>
      ⟨⟨trivial, trivial⟩, fun _ _ => trivial⟩⟩⟩
  · intro t ht
    cases ht.symm.trans hw₁
    refine ⟨⟨BuildEnv.accepting_succeeds, ?_⟩, fun _ _ => trivial⟩
    intro db hdb
    cases hdb.symm.trans hdb₁
    rw [hnumber₁]
    decide

/-- A database that is destroyed after one write and created again lists the table `sstable_1` and
will write `sstable_1` next. -/
theorem numbersFresh_fails_reopened :
    ∃ w db, Machine.run World.step World.start
        [.create ⟨0, false, 0⟩, .write [.put [97] [49]] 0 flatHeights,
          .destroy .accepting .accepting, .create ⟨0, false, 0⟩] = .ok w ∧
      w.db = some db ∧ db.fileMetas.map FileMeta.number = [1] ∧ db.sstableNumber = 1 ∧
      ¬ NumbersFresh db := by
  have hrun : (Machine.run World.step World.start
      [.create ⟨0, false, 0⟩, .write [.put [97] [49]] 0 flatHeights,
        .destroy .accepting .accepting, .create ⟨0, false, 0⟩]).map
      (fun w => w.db.map fun db => (db.fileMetas.map FileMeta.number, db.sstableNumber)) =
      .ok (some ([1], 1)) := by
    decide +kernel
  obtain ⟨w, hw, hdata⟩ := Exec.exists_of_map hrun
  obtain ⟨db, hdb, hnumbers⟩ := Option.map_eq_some_iff.1 hdata
  obtain ⟨h1, h2⟩ := Prod.mk.inj hnumbers
  refine ⟨w, db, hw, hdb, h1, h2, fun h => h.next_notMem ?_⟩
  rw [h1, h2]
  exact List.mem_singleton_self 1

end KoishiDB
