import KoishiDB.Base.Machine
import KoishiDB.Db.DBimpl

/-!
# Sessions

A machine of any number of sessions over one directory: a database is created, with or without a
manifest from an earlier session, it is written to, its compaction threads run, and it is destroyed
while none of them is left.  Every action is one critical section of the source; the label carries
what the code does not decide by itself.

The state also records the history: the entries that every `Write` inserted, and the pairs that
were passed to `TableBuilder::Add` for every table that was built.

* `step_cases` : what a step can do.
* `backGroundCall_cases`, `close_cases` : the two steps that write a table.
-/

namespace KoishiDB

/-- The directory of a database. -/
structure Disk where
  manifest : Option Bytes
  /-- The content of `sstable_N`. -/
  sstable : ℕ → Option Bytes

/-- The directory, the running database and the history. -/
structure World where
  disk : Disk
  db : Option DBimpl
  /-- The entries inserted by each `Write`, in order. -/
  commits : List (List Entry)
  /-- The pairs of each table built, in order. -/
  tables : List (List (Bytes × Bytes))

/-- What can happen next. -/
inductive Action where
  | create (u : Uninit)
  | write (ops : List WriteOp) (size₀ : ℕ) (heights : Heights)
  | backGroundCall (env : BuildEnv)
  | destroy (env manifestEnv : BuildEnv)

/-- All file operations of the action succeed. -/
def Action.Succeeds : Action → Prop
  | create _ => True
  | write _ _ _ => True
  | backGroundCall env => env.Succeeds
  | destroy env manifestEnv => env.Succeeds ∧ manifestEnv.Succeeds

/-- The table that a build leaves behind, if it succeeded. -/
def BuildResult.built (r : BuildResult) : List (List (Bytes × Bytes)) :=
  if r.status.ok then [r.added] else []

namespace World

/-- An empty directory and no database. -/
def start : World := ⟨⟨none, fun _ => none⟩, none, [], []⟩

/-- The effect of a build of `sstable_N` on the directory and the history. -/
def record (w : World) (number : ℕ) (r : BuildResult) : World :=
  { w with
    disk := { w.disk with
      sstable := Function.update w.disk.sstable number (r.effect.apply (w.disk.sstable number)) }
    tables := w.tables ++ r.built }

/-- The running database. -/
def running (w : World) : Exec DBimpl :=
  match w.db with
  | none => .error .nullptr
  | some db => .ok db

/-- The machine.  A second database, a background call without a thread and the destruction of a
database that a thread still uses lead nowhere. -/
def step (w : World) : Action → Exec World
  | .create u =>
    if w.db.isSome then .error .blocked
    else do
      let db ← DBimpl.make u w.disk.manifest
      return { w with db := some db }
  | .write ops size₀ heights => do
    let db ← w.running
    let batch ← WriteBatch.build ops
    let (db, es) ← db.write size₀ heights batch
    return { w with db := some db, commits := w.commits ++ [es] }
  | .backGroundCall env => do
    let db ← w.running
    if db.tasks = 0 then throw .blocked
    let (db', r) ← db.backGroundCall env
    let w := { w with db := some db' }
    return r.elim w (w.record db.sstableNumber)
  | .destroy env manifestEnv => do
    let db ← w.running
    if db.tasks ≠ 0 then throw .nullptr
    let (_, r, effect) ← db.close env manifestEnv
    let w := { w with
      db := none
      disk := { w.disk with manifest := effect.apply w.disk.manifest } }
    return w.record db.sstableNumber r

theorem running_eq_ok {w : World} {db : DBimpl} : w.running = .ok db ↔ w.db = some db := by
  unfold running
  split <;> simp_all

/-- A build changes the directory, not the database. -/
theorem db_elim_record (w : World) (number : ℕ) (r : Option BuildResult) :
    (r.elim w (w.record number)).db = w.db := by
  cases r <;> rfl

variable {w w' : World} {a : Action}

/-- **What a step can do.** -/
theorem step_cases (h : w.step a = .ok w') :
    (∃ u db, a = .create u ∧ w.db = none ∧ DBimpl.make u w.disk.manifest = .ok db ∧
      w' = { w with db := some db }) ∨
    (∃ ops size₀ heights db batch db' es, a = .write ops size₀ heights ∧ w.db = some db ∧
      WriteBatch.build ops = .ok batch ∧ db.write size₀ heights batch = .ok (db', es) ∧
      w' = { w with db := some db', commits := w.commits ++ [es] }) ∨
    (∃ env db db' r, a = .backGroundCall env ∧ w.db = some db ∧ db.tasks ≠ 0 ∧
      db.backGroundCall env = .ok (db', r) ∧
      w' = r.elim { w with db := some db' }
        (World.record { w with db := some db' } db.sstableNumber)) ∨
    (∃ env manifestEnv db db' r effect, a = .destroy env manifestEnv ∧ w.db = some db ∧
      db.tasks = 0 ∧ db.close env manifestEnv = .ok (db', r, effect) ∧
      w' = World.record { w with
        db := none
        disk := { w.disk with manifest := effect.apply w.disk.manifest } } db.sstableNumber r) := by
  -- One case for each action; a failed guard is an error, so it has no case of its own.
  cases a with
  | create u =>
    simp only [step] at h
    split at h
    · cases h
    · rename_i hdb
      obtain ⟨db, hmake, h⟩ := Exec.bind_eq_ok.1 h
      cases h
      exact .inl ⟨u, db, rfl, by simpa using hdb, hmake, rfl⟩
  | write ops size₀ heights =>
    obtain ⟨db, hdb, h⟩ := Exec.bind_eq_ok.1 h
    obtain ⟨batch, hbatch, h⟩ := Exec.bind_eq_ok.1 h
    obtain ⟨⟨db', es⟩, hwrite, h⟩ := Exec.bind_eq_ok.1 h
    cases h
    exact .inr (.inl ⟨ops, size₀, heights, db, batch, db', es, rfl, running_eq_ok.1 hdb, hbatch,
      hwrite, rfl⟩)
  | backGroundCall env =>
    obtain ⟨db, hdb, h⟩ := Exec.bind_eq_ok.1 h
    dsimp only at h
    split at h
    · cases h
    · rename_i htasks
      obtain ⟨⟨db', r⟩, hcall, h⟩ := Exec.bind_eq_ok.1 h
      cases h
      exact .inr (.inr (.inl ⟨env, db, db', r, rfl, running_eq_ok.1 hdb, htasks, hcall, rfl⟩))
  | destroy env manifestEnv =>
    obtain ⟨db, hdb, h⟩ := Exec.bind_eq_ok.1 h
    dsimp only at h
    split at h
    · cases h
    · rename_i htasks
      obtain ⟨⟨db', r, effect⟩, hclose, h⟩ := Exec.bind_eq_ok.1 h
      cases h
      exact .inr (.inr (.inr ⟨env, manifestEnv, db, db', r, effect, rfl, running_eq_ok.1 hdb,
        not_not.1 htasks, hclose, rfl⟩))

/-- A bound for the sequence numbers of the running database. -/
theorem lastSequence_lt {db : DBimpl} {n k bound : ℕ} (hdb : w.db = some db)
    (hlast : db.lastSequence = n) (h : n + k < bound) :
    ∀ db', w.db = some db' → db'.lastSequence + k < bound := by
  intro db' hdb'
  cases hdb'.symm.trans hdb
  rwa [hlast]

/-- A write that returns is a step. -/
theorem step_write {ops : List WriteOp} {size₀ : ℕ} {heights : Heights} {batch : WriteBatch}
    {db db' : DBimpl} {es : List Entry} (hdb : w.db = some db)
    (hbatch : WriteBatch.build ops = .ok batch)
    (hwrite : db.write size₀ heights batch = .ok (db', es)) :
    w.step (.write ops size₀ heights) =
      .ok { w with db := some db', commits := w.commits ++ [es] } := by
  simp only [step, running, hdb, hbatch, hwrite, Exec.ok_bind, Exec.pure_eq]

end World

/-! ### The steps that write a table -/

namespace DBimpl

variable {db db' : DBimpl} {env manifestEnv : BuildEnv} {r : BuildResult}

/-- What `BackGroundCall` does: nothing is to be done, or a table is built. -/
theorem backGroundCall_cases {r : Option BuildResult}
    (h : db.backGroundCall env = .ok (db', r)) :
    (db.immutableMemtable = none ∧ r = none ∧
      db' = { db with backgroundCompactionSchedule := false, tasks := db.tasks - 1 }) ∨
    ∃ db₁ r₁, r = some r₁ ∧ db.compactMemtable env = .ok (db₁, r₁) ∧
      db' = { db₁ with
        immutableMemtable := if r₁.status.ok then none else db₁.immutableMemtable
        backgroundCompactionSchedule := false
        tasks := db₁.tasks - 1 } := by
  obtain ⟨⟨db₂, r₂⟩, hcomp, h⟩ := Exec.bind_eq_ok.1 h
  cases h
  rcases backGroundCompaction_cases hcomp with ⟨himm, rfl, rfl⟩ | ⟨db₁, r₁, hc, rfl, rfl⟩
  · exact .inl ⟨himm, rfl, rfl⟩
  · exact .inr ⟨db₁, r₁, rfl, hc, rfl⟩

/-- What the destructor does. -/
theorem close_cases {effect : FileEffect} (h : db.close env manifestEnv = .ok (db', r, effect)) :
    db.backgroundCompactionSchedule = false ∧
    ∃ db₁, db.retireMemtable.compactMemtable env = .ok (db₁, r) ∧
      db' = { db₁ with immutableMemtable := none } ∧
      db'.dumpManifest manifestEnv = .ok effect := by
  obtain ⟨db₀, hawait, h⟩ := Exec.bind_eq_ok.1 h
  unfold awaitCompaction at hawait
  split at hawait
  · cases hawait
  · rename_i hflag
    cases hawait
    obtain ⟨⟨db₁, r₁⟩, hcomp, h⟩ := Exec.bind_eq_ok.1 h
    obtain ⟨effect₁, hdump, h⟩ := Exec.bind_eq_ok.1 h
    obtain ⟨_, -, h⟩ := Exec.bind_eq_ok.1 h
    cases h
    exact ⟨by simpa using hflag, db₁, hcomp, rfl, hdump⟩

end DBimpl

/-! ### A short session -/

/-- A session with one write, into a memtable that was created with a large size. -/
def oneWrite : List Action :=
  [.create ⟨4095, false, 0⟩, .write [.put [97] [49]] 0 flatHeights]

/-- A second write finds the memtable full. -/
def twoWrites : List Action := oneWrite ++ [.write [.put [98] [50]] 0 flatHeights]

/-- The first write gets the sequence number 2. -/
theorem run_oneWrite : ∃ w db, Machine.run World.step World.start oneWrite = .ok w ∧
    w.db = some db ∧ db.lastSequence = 2 := by
  have hrun : (Machine.run World.step World.start oneWrite).map
      (fun w => w.db.map DBimpl.lastSequence) = .ok (some 2) := by
    decide +kernel
  obtain ⟨w, hw, hdata⟩ := Exec.exists_of_map hrun
  obtain ⟨db, hdb, hlast⟩ := Option.map_eq_some_iff.1 hdata
  exact ⟨w, db, hw, hdb, hlast⟩

/-- The steps of a run that starts with the first write: the sequence numbers before the first write
and behind it are known. -/
theorem along_oneWrite_append {C : World → Action → Prop} {as : List Action}
    (hcreate : C World.start (.create ⟨4095, false, 0⟩))
    (hwrite : ∀ w db, w.db = some db → db.lastSequence = 1 →
      C w (.write [.put [97] [49]] 0 flatHeights))
    (hrest : ∀ w db, w.db = some db → db.lastSequence = 2 → Machine.Along World.step C w as) :
    Machine.Along World.step C World.start (oneWrite ++ as) := by
  refine Machine.along_append.2 ⟨⟨hcreate, ?_⟩, ?_⟩
  · intro w hw
    cases hw
    exact ⟨hwrite _ _ rfl rfl, fun _ _ => trivial⟩
  · intro w hw
    obtain ⟨w₁, db₁, hw₁, hdb₁, hlast₁⟩ := run_oneWrite
    cases hw.symm.trans hw₁
    exact hrest _ _ hdb₁ hlast₁

end KoishiDB
