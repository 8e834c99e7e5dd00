import KoishiDB.Memory.WriteBatch
import KoishiDB.Disk.SSTable
import KoishiDB.Disk.Builder

/-!
# The database

`db_impl.h` and `db_impl.cc`.  The functions below are the bodies that run while `rwlock_` is held,
so each of them is one step of the database; which step comes next is decided elsewhere
(`KoishiDB.Db.Session`).  Detached compaction threads that have not got the lock yet are counted in
`tasks`.

Two waits of the source keep `rwlock_` locked: the one for the writers in front, in `Write`, and
the one for the end of a compaction, in `MakeRoomForWrite`.  Whatever could end them needs the
lock, so here they are the fault `blocked`.

Table files have the name `sstable_` and a number; a directory maps the number to the content.
-/

namespace KoishiDB

/-- `struct DBimpl::Writer`, without its condition variable. -/
structure Writer where
  batch : WriteBatch
  done : Bool
deriving Repr, DecidableEq

/-- The contents of memory that is read before it is set: the size of a new memtable, the flag
`background_compaction_schedule_`, and local variables of `ReadManifest`. -/
structure Uninit where
  size : ℕ
  schedule : Bool
  number : ℕ
deriving Repr, DecidableEq

/-- `class DBimpl`. -/
structure DBimpl where
  /-- The queue `writers_`, front first. -/
  writers : List Writer
  memtable : Memtable
  /-- `none` is the null pointer. -/
  immutableMemtable : Option Memtable
  backgroundCompactionSchedule : Bool
  lastSequence : ℕ
  fileMetas : List FileMeta
  sstableNumber : ℕ
  /-- The detached threads that have not run `BackGroundCall` yet. -/
  tasks : ℕ
deriving Repr, DecidableEq

/-! ### The search in the tables -/

/-- The test of `Get` that decides whether a table is searched. -/
def FileMeta.inRange (m : FileMeta) (internalKey : Bytes) : Exec Bool := do
  let smallest ← internalKeyCompare (.ofString m.smallestKey) internalKey
  if smallest ≠ -1 then return false
  let largest ← internalKeyCompare (.ofString m.largestKey) internalKey
  return largest = 1

/-- For keys of at least eight bytes the test is that of their bytes. -/
theorem FileMeta.inRange_eq {m : FileMeta} {internalKey : Bytes} {smallest largest : ℤ}
    (hs : 8 ≤ m.smallestKey.length) (hl : 8 ≤ m.largestKey.length)
    (h : internalKeyCompare m.smallestKey internalKey = .ok smallest)
    (h' : internalKeyCompare m.largestKey internalKey = .ok largest) :
    m.inRange internalKey = .ok (decide (smallest = -1 ∧ largest = 1)) := by
  rw [inRange, internalKeyCompare_ofString hs, internalKeyCompare_ofString hl, h, h']
  by_cases hc : smallest = -1
  · simp [hc]
  · simp [hc]

/-- `SSTable::Open` and `SSTable::InternalGet`, as the loop of `Get` calls them. -/
def lookupTable (files : ℕ → Option Bytes) (internalKey : Bytes) (m : FileMeta) :
    Exec (Option Bytes) := do
  match ← SSTable.openTable (.ofContent (files m.number)) m.fileSize with
  | none => throw (.assertion "sstable_opt.has_value()")
  | some sstable => sstable.internalGet internalKeyCompare internalKey

/-- The loop of `Get` over the table files; `lookup` is what it does with a table whose range has
the key. -/
def searchTables (lookup : FileMeta → Exec (Option Bytes)) (internalKey : Bytes) :
    List FileMeta → Exec (Option Bytes)
  | [] => .ok none
  | m :: ms => do
    if ← m.inRange internalKey then
      match ← lookup m with
      | none => searchTables lookup internalKey ms
      | some result => return some result
    else searchTables lookup internalKey ms

namespace DBimpl

/-! ### The manifest -/

/-- The loop of `ReadManifest` over the file metas. -/
def readMetas (garbage : ℕ) : ℕ → Bytes → Exec (List FileMeta)
  | 0, _ => .ok []
  | n + 1, slice => do
    let (m, slice) ← FileMeta.decode garbage slice
    let ms ← readMetas garbage n slice
    return m :: ms

/-- `DBimpl::ReadManifest` of a manifest with the given content.  The `read` calls do not stop at
the end of the buffer. -/
def readManifest (garbage : ℕ) (content : Bytes) (db : DBimpl) : Exec DBimpl := do
  if kManifestReserved < content.length then throw .outOfBounds
  let (fileMetaCount, slice) ← getVarint32 content
  let (lastSequence, slice) := FileMeta.getVarint64Or garbage slice
  let metas ← readMetas garbage fileMetaCount slice
  return { db with
    fileMetas := db.fileMetas ++ metas
    lastSequence
    sstableNumber := fileMetaCount }

/-- The state of a database that was made without a manifest. -/
def fresh (u : Uninit) : DBimpl where
  writers := []
  memtable := .make u.size
  immutableMemtable := none
  backgroundCompactionSchedule := u.schedule
  lastSequence := 1
  fileMetas := []
  sstableNumber := 1
  tasks := 0

/-- The constructor, with the content of the manifest, if there is one. -/
def make (u : Uninit) (manifest : Option Bytes) : Exec DBimpl :=
  match manifest with
  | none => .ok (fresh u)
  | some content =>
    { fresh u with lastSequence := u.number, sstableNumber := u.number }.readManifest u.number
      content

/-- The numbers at the start of a manifest: the number of file metas and the last sequence
number. -/
def manifestHeader (db : DBimpl) : Bytes :=
  putVarint64 (putVarint32 db.fileMetas.length []) db.lastSequence

/-- What the write calls to a file do that could not be opened. -/
def badDescriptor : ℕ → WriteResult := fun _ => .error 9 "Bad file descriptor"

/-- `DBimpl::DumpManifest`: what happens to the file.  It is opened without truncating it, and the
header is appended as a zero-terminated string. -/
def dumpManifest (env : BuildEnv) (db : DBimpl) : Exec FileEffect := do
  let file := WritableFile.make (if env.opens then env.os else badDescriptor) "manifest"
  let file := ((file.append (cString db.manifestHeader)).2.flush).2
  let file ← db.fileMetas.foldlM (fun file m => do
    m.print
    return ((file.append m.encode).2.flush).2) file
  return if env.opens then .written file.fd else .untouched

/-! ### Compaction -/

/-- The name of a table file. -/
def tableName (number : ℕ) : String := "sstable_" ++ toString number

/-- `DBimpl::CompactMemtable`: the database, and what `BuildTable` did. -/
def compactMemtable (env : BuildEnv) (db : DBimpl) : Exec (DBimpl × BuildResult) :=
  match db.immutableMemtable with
  | none => .error .nullptr
  | some imm => do
    let it ← MemtableIterator.make imm
    let r ← buildTable env (tableName db.sstableNumber) .make it
    let newFileMeta := { r.fileMeta with number := db.sstableNumber }
    let number := u64 (db.sstableNumber + 1)
    -- `sstable_number_--`; the new file meta stays in the list
    let number := if !r.status.ok then u64 (number + (2 ^ 64 - 1)) else number
    return ({ db with fileMetas := db.fileMetas ++ [newFileMeta], sstableNumber := number }, r)

/-- `DBimpl::BackGroundCompaction`: the database, and what `BuildTable` did, if it was called. -/
def backGroundCompaction (env : BuildEnv) (db : DBimpl) : Exec (DBimpl × Option BuildResult) :=
  if db.immutableMemtable.isSome then do
    let (db, r) ← db.compactMemtable env
    if r.status.ok then return ({ db with immutableMemtable := none }, some r)
    else return (db, some r)
  else return (db, none)

/-- `DBimpl::BackGroundCall`, run by one of the detached threads. -/
def backGroundCall (env : BuildEnv) (db : DBimpl) : Exec (DBimpl × Option BuildResult) := do
  let (db, r) ← db.backGroundCompaction env
  return ({ db with backgroundCompactionSchedule := false, tasks := db.tasks - 1 }, r)

/-- `DBimpl::MaybeScheduleCompaction`; the flag is read and not set. -/
def maybeScheduleCompaction (db : DBimpl) : DBimpl :=
  if db.backgroundCompactionSchedule = true then db
  else if db.immutableMemtable.isSome then { db with tasks := db.tasks + 1 }
  else db

/-- The rotation in `MakeRoomForWrite`; `size₀` is the uninitialised size of the new memtable. -/
def rotate (size₀ : ℕ) (db : DBimpl) : DBimpl :=
  { db with immutableMemtable := some db.memtable, memtable := .make size₀
  }.maybeScheduleCompaction

/-- The loop of `MakeRoomForWrite`. -/
def makeRoomLoop (size₀ : ℕ) : ℕ → DBimpl → Exec DBimpl
  | 0, _ => .error .diverges
  | fuel + 1, db =>
    if db.memtable.estimatedSize < kMaxMemtableSize then .ok db
    else if db.immutableMemtable.isSome then .error .blocked
    else makeRoomLoop size₀ fuel (db.rotate size₀)

/-- `DBimpl::MakeRoomForWrite`; the second round returns or waits. -/
def makeRoomForWrite (size₀ : ℕ) (db : DBimpl) : Exec DBimpl := makeRoomLoop size₀ 2 db

/-! ### The destructor -/

/-- The first part of `~DBimpl`, up to `rwlock_.unlock()`: the wait for a scheduled compaction
keeps `rwlock_` locked. -/
def awaitCompaction (db : DBimpl) : Exec DBimpl :=
  if db.backgroundCompactionSchedule = true then .error .blocked else .ok db

/-- The assignment `immutable_memtable_ = memtable_` of `~DBimpl`. -/
def retireMemtable (db : DBimpl) : DBimpl := { db with immutableMemtable := some db.memtable }

/-- `~DBimpl`, when nothing else runs: what the last `BuildTable` did, and what happens to the
manifest. -/
def close (env manifestEnv : BuildEnv) (db : DBimpl) :
    Exec (DBimpl × BuildResult × FileEffect) := do
  let db ← db.awaitCompaction
  let (db, r) ← db.retireMemtable.compactMemtable env
  let db := { db with immutableMemtable := none }
  let effect ← db.dumpManifest manifestEnv
  Exec.require (db.immutableMemtable = none) "immutable_memtable_ == nullptr"
  return (db, r, effect)

/-! ### Writing -/

/-- The size that a group may grow to. -/
def maxGroupSize (size : ℕ) : ℕ := if size ≤ 128 <<< 10 then size + (128 <<< 10) else 1 <<< 20

/-- The loop of `BuildWriteBatchGroup` over the writers behind the first: how many of them join the
group, and the writers.  `Append(result, w->batch)` adds the operations of `result` to the batch of
the writer. -/
def groupLoop (result : WriteBatch) (maxSize : ℕ) : ℕ → List Writer → Exec (ℕ × List Writer)
  | _, [] => .ok (0, [])
  | size, w :: ws => do
    let size := size + w.batch.bytes
    if size > maxSize then return (0, w :: ws)
    let batch ← result.append w.batch
    let (n, ws) ← groupLoop result maxSize size ws
    return (n + 1, { w with batch } :: ws)

/-- `DBimpl::BuildWriteBatchGroup`: the batch it returns, the place of `last_writer` in the queue,
and the queue. -/
def buildWriteBatchGroup : List Writer → Exec (WriteBatch × ℕ × List Writer)
  | [] => .error .outOfBounds
  | first :: rest => do
    let size := first.batch.bytes
    let (n, rest) ← groupLoop first.batch (maxGroupSize size) size rest
    return (first.batch, n, first :: rest)

/-- What `Write` leaves behind once it has made room. -/
structure Commit where
  db : DBimpl
  /-- The writers taken from the queue. -/
  popped : List Writer
  /-- The entries inserted into the memtable, in order. -/
  inserted : List Entry
deriving Repr, DecidableEq

/-- The part of `Write` behind `MakeRoomForWrite`, for the writer at the front of the queue. -/
def commit (heights : Heights) (db : DBimpl) : Exec Commit := do
  let (batch, lastWriter, writers) ← buildWriteBatchGroup db.writers
  let batch := batch.setSequence db.lastSequence
  let lastSequence := ((db.lastSequence + batch.count) % 2 ^ 64).toNat
  let (memtable, inserted) ← batch.insertAll db.memtable heights
  let group := writers.take (lastWriter + 1)
  return {
    db := { db with writers := writers.drop (lastWriter + 1), memtable, lastSequence }
    popped := group.take 1 ++ (group.drop 1).map fun w => { w with done := true }
    inserted }

/-- `DBimpl::Write`: the database, and the entries inserted.  A writer that is not at the front
waits with `rwlock_` locked. -/
def write (size₀ : ℕ) (heights : Heights) (update : WriteBatch) (db : DBimpl) :
    Exec (DBimpl × List Entry) := do
  if db.writers ≠ [] then throw .blocked
  let db := { db with writers := db.writers ++ [Writer.mk update false] }
  let db ← db.makeRoomForWrite size₀
  let c ← db.commit heights
  return (c.db, c.inserted)

/-- `DBimpl::Put`. -/
def put (size₀ : ℕ) (heights : Heights) (key value : Bytes) (db : DBimpl) :
    Exec (DBimpl × List Entry) := do
  let writeBatch ← WriteBatch.make.put key value
  db.write size₀ heights writeBatch

/-- `DBimpl::Delete`. -/
def delete (size₀ : ℕ) (heights : Heights) (key : Bytes) (db : DBimpl) :
    Exec (DBimpl × List Entry) := do
  let writeBatch ← WriteBatch.make.delete key
  db.write size₀ heights writeBatch

/-! ### Reading -/

/-- The loop of `Get` over the table files. -/
def searchFiles (files : ℕ → Option Bytes) (internalKey : Bytes) (metas : List FileMeta) :
    Exec (Option Bytes) :=
  searchTables (lookupTable files internalKey) internalKey metas

/-- The memtable key that `Get` searches for. -/
def seekKey (key : Bytes) : Bytes := createMemtableKey key UINT64_MAX [] kTypeSeek

/-- The test `immutable_memtable_ != nullptr && imm->Get(memtable_key, value)`. -/
def searchImmutable (key : Bytes) (db : DBimpl) : Exec (Option Bytes) :=
  match db.immutableMemtable with
  | some imm => imm.get (seekKey key)
  | none => .ok none

/-- `DBimpl::Get`; `none` is the result `false`. -/
def get (files : ℕ → Option Bytes) (key : Bytes) (db : DBimpl) : Exec (Option Bytes) := do
  match ← db.memtable.get (seekKey key) with
  | some value => return some value
  | none =>
    match ← db.searchImmutable key with
    | some value => return some value
    | none => searchFiles files (createInternalKey key UINT64_MAX kTypeSeek) db.fileMetas

/-! ### What a step can do -/

section Rotate

variable (size₀ : ℕ) (db : DBimpl)

@[simp] theorem rotate_memtable : (db.rotate size₀).memtable = .make size₀ := by
  unfold rotate maybeScheduleCompaction; split_ifs <;> rfl

@[simp] theorem rotate_immutableMemtable :
    (db.rotate size₀).immutableMemtable = some db.memtable := by
  unfold rotate maybeScheduleCompaction; split_ifs <;> rfl

@[simp] theorem rotate_writers : (db.rotate size₀).writers = db.writers := by
  unfold rotate maybeScheduleCompaction; split_ifs <;> rfl

@[simp] theorem rotate_lastSequence : (db.rotate size₀).lastSequence = db.lastSequence := by
  unfold rotate maybeScheduleCompaction; split_ifs <;> rfl

@[simp] theorem rotate_fileMetas : (db.rotate size₀).fileMetas = db.fileMetas := by
  unfold rotate maybeScheduleCompaction; split_ifs <;> rfl

@[simp] theorem rotate_sstableNumber : (db.rotate size₀).sstableNumber = db.sstableNumber := by
  unfold rotate maybeScheduleCompaction; split_ifs <;> rfl

/-- The rotation starts a thread unless the flag says that one has been started. -/
theorem rotate_tasks : (db.rotate size₀).tasks =
    db.tasks + (!db.backgroundCompactionSchedule).toNat := by
  cases hflag : db.backgroundCompactionSchedule <;> simp [rotate, maybeScheduleCompaction, hflag]

@[simp] theorem rotate_backgroundCompactionSchedule :
    (db.rotate size₀).backgroundCompactionSchedule = db.backgroundCompactionSchedule := by
  unfold rotate maybeScheduleCompaction; split_ifs <;> rfl

end Rotate

variable {db db' : DBimpl} {size₀ : ℕ}

/-- What a successful `CompactMemtable` does to the list of tables. -/
theorem compactMemtable_cases {env : BuildEnv} {r : BuildResult}
    (h : db.compactMemtable env = .ok (db', r)) :
    ∃ imm it, db.immutableMemtable = some imm ∧ MemtableIterator.make imm = .ok it ∧
      buildTable env (tableName db.sstableNumber) .make it = .ok r ∧
      db' = { db with
        fileMetas := db.fileMetas ++ [{ r.fileMeta with number := db.sstableNumber }]
        sstableNumber := if !r.status.ok then u64 (u64 (db.sstableNumber + 1) + (2 ^ 64 - 1))
          else u64 (db.sstableNumber + 1) } := by
  unfold compactMemtable at h
  cases himm : db.immutableMemtable with
  | none => rw [himm] at h; cases h
  | some imm =>
    rw [himm] at h
    obtain ⟨it, hit, h⟩ := Exec.bind_eq_ok.1 h
    obtain ⟨r', hr, h⟩ := Exec.bind_eq_ok.1 h
    cases h
    exact ⟨imm, it, rfl, hit, hr, rfl⟩

/-- What `BackGroundCompaction` does: nothing, when there is nothing to compact, or it calls
`CompactMemtable` and gives up the immutable memtable if the table was built. -/
theorem backGroundCompaction_cases {env : BuildEnv} {r : Option BuildResult}
    (h : db.backGroundCompaction env = .ok (db', r)) :
    db.immutableMemtable = none ∧ r = none ∧ db' = db ∨
    ∃ db₁ r₁, db.compactMemtable env = .ok (db₁, r₁) ∧ r = some r₁ ∧
      db' = { db₁ with
        immutableMemtable := if r₁.status.ok then none else db₁.immutableMemtable } := by
  unfold backGroundCompaction at h
  split at h
  · obtain ⟨⟨db₁, r₁⟩, hcomp, h⟩ := Exec.bind_eq_ok.1 h
    refine .inr ⟨db₁, r₁, hcomp, ?_⟩
    dsimp only at h
    split at h
    · rename_i hok
      cases h
      exact ⟨rfl, by rw [if_pos hok]⟩
    · rename_i hok
      cases h
      exact ⟨rfl, by rw [if_neg hok]⟩
  · rename_i himm
    cases h
    exact .inl ⟨by simpa using himm, rfl, rfl⟩

/-- The part of the database that a compaction can change. -/
theorem backGroundCompaction_changes {env : BuildEnv} {r : Option BuildResult}
    (h : db.backGroundCompaction env = .ok (db', r)) :
    db.immutableMemtable = none ∧ r = none ∧ db' = db ∨
    db.immutableMemtable.isSome = true ∧ ∃ result fileMetas sstableNumber, r = some result ∧
      db' = { db with
        fileMetas, sstableNumber
        immutableMemtable := if result.status.ok then none else db.immutableMemtable } := by
  rcases backGroundCompaction_cases h with hnone | ⟨db₁, r₁, hcomp, hr, hdb⟩
  · exact .inl hnone
  · obtain ⟨imm, it, himm, -, -, rfl⟩ := compactMemtable_cases hcomp
    exact .inr ⟨by rw [himm]; rfl, r₁, _, _, hr, hdb⟩

theorem commit_frame {heights : Heights} {k : Commit} (h : db.commit heights = .ok k) :
    ∃ writers memtable lastSequence, k.db = { db with writers, memtable, lastSequence } := by
  obtain ⟨⟨batch, n, ws⟩, -, h⟩ := Exec.bind_eq_ok.1 h
  obtain ⟨⟨m, es⟩, -, h⟩ := Exec.bind_eq_ok.1 h
  cases h
  exact ⟨_, _, _, rfl⟩

/-- `MakeRoomForWrite` leaves a memtable that is not full as it is, and rotates a full one. -/
theorem makeRoomForWrite_eq_ok : db.makeRoomForWrite size₀ = .ok db' ↔
    db.memtable.size < kMaxMemtableSize ∧ db' = db ∨
    kMaxMemtableSize ≤ db.memtable.size ∧ db.immutableMemtable = none ∧
      u64 size₀ < kMaxMemtableSize ∧ db' = db.rotate size₀ := by
  by_cases hfull : db.memtable.size < kMaxMemtableSize
  · simp [makeRoomForWrite, makeRoomLoop, Memtable.estimatedSize, hfull, eq_comm]
  · cases himm : db.immutableMemtable with
    | some imm => simp [makeRoomForWrite, makeRoomLoop, Memtable.estimatedSize, hfull, himm]
    | none =>
      simp only [makeRoomForWrite, makeRoomLoop, Memtable.estimatedSize, hfull, himm, ↓reduceIte,
        Option.isSome_none, Bool.false_eq_true, rotate_memtable, Memtable.make,
        rotate_immutableMemtable, Option.isSome_some, false_and, false_or, not_lt.1 hfull,
        true_and]
      split_ifs with hsize
      · simp [hsize, eq_comm]
      · simp [hsize]

theorem makeRoomForWrite_lastSequence (h : db.makeRoomForWrite size₀ = .ok db') :
    db'.lastSequence = db.lastSequence := by
  rcases makeRoomForWrite_eq_ok.1 h with ⟨-, rfl⟩ | ⟨-, -, -, rfl⟩
  · rfl
  · exact rotate_lastSequence ..

/-- The writers do not matter to `MakeRoomForWrite`. -/
theorem makeRoomForWrite_writers {ws : List Writer}
    (h : { db with writers := ws }.makeRoomForWrite size₀ = .ok db') :
    db'.writers = ws ∧ db.makeRoomForWrite size₀ = .ok { db' with writers := db.writers } := by
  rcases makeRoomForWrite_eq_ok.1 h with ⟨hroom, rfl⟩ | ⟨hfull, himm, hsize, rfl⟩
  · exact ⟨rfl, makeRoomForWrite_eq_ok.2 (.inl ⟨hroom, rfl⟩)⟩
  · refine ⟨by simp, makeRoomForWrite_eq_ok.2 (.inr ⟨hfull, himm, hsize, ?_⟩)⟩
    unfold rotate maybeScheduleCompaction
    split_ifs <;> rfl

/-- The steps of a `Write` that returns: nobody else is in the queue, there is room or it is made,
and the batch is inserted with the sequence numbers behind the last one. -/
theorem write_cases {heights : Heights} {update : WriteBatch} {es : List Entry}
    (h : db.write size₀ heights update = .ok (db', es)) :
    db.writers = [] ∧ ∃ db₁ m, db.makeRoomForWrite size₀ = .ok db₁ ∧
      (update.setSequence db₁.lastSequence).insertAll db₁.memtable heights = .ok (m, es) ∧
      db' = { db₁ with
        memtable := m
        lastSequence :=
          ((db₁.lastSequence + (update.setSequence db₁.lastSequence).count) % 2 ^ 64).toNat } := by
  unfold write at h
  by_cases hw : db.writers = []
  · refine ⟨hw, ?_⟩
    rw [if_neg (not_not.2 hw)] at h
    simp only [Exec.pure_eq, hw, List.nil_append] at h
    obtain ⟨db₁, hroom, h⟩ := Exec.bind_eq_ok.1 h
    obtain ⟨hws, hroom⟩ := makeRoomForWrite_writers hroom
    obtain ⟨c, hc, h⟩ := Exec.bind_eq_ok.1 h
    simp only [commit, hws, buildWriteBatchGroup, groupLoop, Exec.ok_bind, Exec.pure_eq] at hc
    obtain ⟨⟨m, es'⟩, hins, hc⟩ := Exec.bind_eq_ok.1 hc
    cases hc
    cases h
    exact ⟨_, m, hroom, hins, by rw [hw]; rfl⟩
  · rw [if_pos hw] at h
    cases h

/-- A `Write` of a batch of operations: the batch it inserts carries `last_sequence_`, which then
grows by the number of operations. -/
theorem write_encodes {heights : Heights} {batch : WriteBatch} {s : ℕ} {ops : List WriteOp}
    {es : List Entry} (hbatch : Encodes batch s ops)
    (hlt : db.lastSequence + ops.length < 2 ^ 56)
    (h : db.write size₀ heights batch = .ok (db', es)) :
    ∃ db₁ m w, db.makeRoomForWrite size₀ = .ok db₁ ∧ db₁.lastSequence = db.lastSequence ∧
      Encodes w db.lastSequence ops ∧ w.insertAll db₁.memtable heights = .ok (m, es) ∧
      db' = { db₁ with memtable := m, lastSequence := db.lastSequence + ops.length } := by
  obtain ⟨-, db₁, m, hroom, hins, rfl⟩ := write_cases h
  have hlast : db₁.lastSequence = db.lastSequence := makeRoomForWrite_lastSequence hroom
  have hset := hbatch.setSequence (n := db.lastSequence) (by omega)
  rw [hlast] at hins ⊢
  refine ⟨db₁, m, _, hroom, hlast, hset, hins, ?_⟩
  have hnext : ((db.lastSequence + (batch.setSequence db.lastSequence).count) % 2 ^ 64).toNat =
      db.lastSequence + ops.length := by
    rw [hset.count]
    omega
  rw [hnext]

/-- A `Write` that finds room. -/
theorem write_of_room {heights : Heights} {update : WriteBatch} {m : Memtable} {es : List Entry}
    (hw : db.writers = []) (hroom : db.memtable.size < kMaxMemtableSize)
    (hins : (update.setSequence db.lastSequence).insertAll db.memtable heights = .ok (m, es)) :
    db.write size₀ heights update = .ok ({ db with
      memtable := m
      lastSequence :=
        ((db.lastSequence + (update.setSequence db.lastSequence).count) % 2 ^ 64).toNat }, es) := by
  have hroom' : { db with writers := [Writer.mk update false] }.makeRoomForWrite size₀ =
      .ok { db with writers := [Writer.mk update false] } :=
    makeRoomForWrite_eq_ok.2 (.inl ⟨hroom, rfl⟩)
  simp only [write, hw, ne_eq, not_true_eq_false, ↓reduceIte, List.nil_append, Exec.pure_eq,
    Exec.ok_bind, hroom', commit, buildWriteBatchGroup, groupLoop, hins]
  rfl

end DBimpl

end KoishiDB
