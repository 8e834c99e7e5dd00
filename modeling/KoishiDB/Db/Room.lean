import KoishiDB.Db.Manifest
import KoishiDB.Db.Session

/-!
# Rotation and the sizes of the memtables

`MakeRoomForWrite` compares `EstimatedSize` of the memtable with `kMaxMemtableSize` and makes a new
memtable when the old one is full.  `EstimatedSize` is the field `size_`, to which `Insert` adds the
size of every memtable key; the constructor of `Memtable` does not set it.

* `insertAll_size` : a batch that is inserted into a memtable with room is counted exactly.
* `roomMade_iff` : when `MakeRoomForWrite` makes room.
* `sizesExact_of_run` : the sizes are exact along all runs in which the memory of every new memtable
  starts at zero.
-/

namespace KoishiDB

/-- `EstimatedSize` is the sum of the sizes of the memtable keys inserted. -/
def Memtable.SizeExact (m : Memtable) : Prop := m.estimatedSize = m.keyBytes

theorem Memtable.sizeExact_make {size₀ : ℕ} : (make size₀).SizeExact ↔ u64 size₀ = 0 := Iff.rfl

/-- The sizes of both memtables of the database are exact. -/
structure DBimpl.SizesExact (db : DBimpl) : Prop where
  memtable : db.memtable.SizeExact
  immutable : ∀ imm, db.immutableMemtable = some imm → imm.SizeExact

/-- `MakeRoomForWrite` does what it is for: when there is no immutable memtable it returns after at
most one rotation, and whenever it returns the sizes are exact and the memtable holds fewer than
`kMaxMemtableSize` bytes. -/
structure DBimpl.RoomMade (size₀ : ℕ) (db : DBimpl) : Prop where
  returns : db.immutableMemtable = none → ∃ db', db.makeRoomForWrite size₀ = .ok db' ∧
    (db' = db ∨ db' = db.rotate size₀)
  small : ∀ db', db.makeRoomForWrite size₀ = .ok db' →
    db'.SizesExact ∧ db'.memtable.keyBytes < kMaxMemtableSize

/-- The memory of the memtable that the action makes, if it makes one, starts at zero.  The batch of
a `Write` is a `std::string`, which has fewer than `2 ^ 63` bytes. -/
def KeepsSizes (w : World) : Action → Prop
  | .create u => u64 u.size = 0
  | .write ops size₀ _ => (ops.flatMap WriteOp.encode).length < 2 ^ 63 ∧
      ∀ db, w.db = some db → kMaxMemtableSize ≤ db.memtable.estimatedSize → u64 size₀ = 0
  | .backGroundCall _ => True
  | .destroy _ _ => True

/-! ### Inserting -/

/-- A batch that is inserted into a memtable with room is counted exactly. -/
theorem insertAll_size (heights : Heights) {ops : List WriteOp} {batch : WriteBatch} {n : ℕ}
    {m m' : Memtable} {es : List Entry} (hbatch : WriteBatch.build ops = .ok batch)
    (hbytes : (ops.flatMap WriteOp.encode).length < 2 ^ 63) (hm : m.SizeExact)
    (hroom : m.size < kMaxMemtableSize)
    (h : (batch.setSequence n).insertAll m heights = .ok (m', es)) : m'.SizeExact := by
  have henc := encodes_build hbatch
  rw [WriteBatch.insertAll, WriteBatch.setSequence_payload, WriteBatch.setSequence_count,
    henc.payload, henc.count] at h
  unfold kMaxMemtableSize at hroom
  have hsize : m.size = m.keyBytes := hm
  obtain ⟨hsize', hle⟩ := insertLoop_size heights (by rw [hsize, u64_of_lt (by omega)]) h
  have hcount := henc.count_lt
  -- the size counts modulo `2 ^ 64`, and the bytes of one batch and a full memtable are fewer
  have hlt : m'.keyBytes < 2 ^ 64 := by
    rw [Int.toNat_natCast] at hle
    omega
  exact hsize'.trans (u64_of_lt hlt)

namespace DBimpl

variable {db db' : DBimpl} {size₀ : ℕ}

theorem SizesExact.rotate (h : db.SizesExact) (hzero : u64 size₀ = 0) :
    (db.rotate size₀).SizesExact where
  memtable := by
    rw [rotate_memtable]
    exact Memtable.sizeExact_make.2 hzero
  immutable imm himm := by
    rw [rotate_immutableMemtable] at himm
    cases himm
    exact h.memtable

theorem keyBytes_rotate (size₀ : ℕ) (db : DBimpl) :
    (db.rotate size₀).memtable.keyBytes = 0 := by
  rw [rotate_memtable]
  rfl

/-- `MakeRoomForWrite` of a database with exact sizes makes room unless it has to make a memtable
and the memory of that one does not start at zero. -/
theorem roomMade_iff (h : db.SizesExact) : db.RoomMade size₀ ↔
    (kMaxMemtableSize ≤ db.memtable.estimatedSize → db.immutableMemtable = none →
      u64 size₀ = 0) := by
  have hsize : db.memtable.size = db.memtable.keyBytes := h.memtable
  constructor
  · intro hroom hfull himm
    have hfull : kMaxMemtableSize ≤ db.memtable.size := hfull
    obtain ⟨db', hmake, -⟩ := hroom.returns himm
    have hexact := (hroom.small db' hmake).1.memtable
    rcases makeRoomForWrite_eq_ok.1 hmake with ⟨hlt, -⟩ | ⟨-, -, -, rfl⟩
    · omega
    · rw [rotate_memtable] at hexact
      exact Memtable.sizeExact_make.1 hexact
  · intro hzero
    refine ⟨?_, ?_⟩
    · intro himm
      by_cases hfull : db.memtable.size < kMaxMemtableSize
      · exact ⟨db, makeRoomForWrite_eq_ok.2 (.inl ⟨hfull, rfl⟩), .inl rfl⟩
      · have hzero : u64 size₀ = 0 := hzero (not_lt.1 hfull) himm
        refine ⟨db.rotate size₀, makeRoomForWrite_eq_ok.2 (.inr ⟨not_lt.1 hfull, himm, ?_, rfl⟩),
          .inr rfl⟩
        rw [hzero]
        decide
    · intro db' hmake
      rcases makeRoomForWrite_eq_ok.1 hmake with ⟨hlt, rfl⟩ | ⟨hfull, himm, -, rfl⟩
      · exact ⟨h, hsize ▸ hlt⟩
      · refine ⟨h.rotate (hzero hfull himm), ?_⟩
        rw [keyBytes_rotate]
        decide

/-- A `Write` keeps the sizes exact. -/
theorem SizesExact.write (h : db.SizesExact) {heights : Heights} {ops : List WriteOp}
    {batch : WriteBatch} {es : List Entry} (hbatch : WriteBatch.build ops = .ok batch)
    (hbytes : (ops.flatMap WriteOp.encode).length < 2 ^ 63)
    (hzero : kMaxMemtableSize ≤ db.memtable.estimatedSize → u64 size₀ = 0)
    (hwrite : db.write size₀ heights batch = .ok (db', es)) : db'.SizesExact := by
  obtain ⟨-, db₁, m, hroom, hins, rfl⟩ := write_cases hwrite
  obtain ⟨h₁, hlt⟩ := ((roomMade_iff h).2 fun hfull _ => hzero hfull).small db₁ hroom
  have hsize : db₁.memtable.size = db₁.memtable.keyBytes := h₁.memtable
  exact ⟨insertAll_size heights hbatch hbytes h₁.memtable (hsize ▸ hlt) hins, h₁.immutable⟩

/-- A compaction keeps the memtable, and the immutable one or none. -/
theorem SizesExact.backGroundCall (h : db.SizesExact) {env : BuildEnv} {r : Option BuildResult}
    (hcall : db.backGroundCall env = .ok (db', r)) : db'.SizesExact := by
  rcases backGroundCall_cases hcall with ⟨-, -, rfl⟩ | ⟨db₁, r₁, -, hcomp, rfl⟩
  · exact ⟨h.memtable, h.immutable⟩
  · obtain ⟨imm, it, -, -, -, rfl⟩ := compactMemtable_cases hcomp
    refine ⟨h.memtable, ?_⟩
    intro imm' himm'
    dsimp only at himm'
    split_ifs at himm'
    exact h.immutable imm' himm'

end DBimpl

/-! ### Runs -/

/-- A step that keeps the sizes exact. -/
theorem sizesExact_step {w w' : World} {a : Action} (h : ∀ db, w.db = some db → db.SizesExact)
    (ha : KeepsSizes w a) (hstep : w.step a = .ok w') : ∀ db, w'.db = some db → db.SizesExact := by
  rcases World.step_cases hstep with ⟨u, db, rfl, -, hmake, rfl⟩ |
    ⟨ops, size₀, heights, db, batch, db', es, rfl, hdb, hbatch, hwrite, rfl⟩ |
    ⟨env, db, db', r, rfl, hdb, -, hcall, rfl⟩ |
    ⟨env, manifestEnv, db, db', r, effect, rfl, -, -, -, rfl⟩
  · rintro _ ⟨⟩
    obtain ⟨-, hmem, himm, -⟩ := DBimpl.make_frame hmake
    refine ⟨?_, ?_⟩
    · rw [hmem]
      exact Memtable.sizeExact_make.2 ha
    · intro imm h'
      rw [himm] at h'
      cases h'
  · rintro _ ⟨⟩
    exact (h db hdb).write hbatch ha.1 (ha.2 db hdb) hwrite
  · rw [World.db_elim_record]
    rintro _ ⟨⟩
    exact (h db hdb).backGroundCall hcall
  · rintro _ ⟨⟩

/-- **Rotation keeps memtables small** in every run in which the memory of each new memtable starts
at zero: in every state reached, `EstimatedSize` of both memtables is the sum of the sizes of their
keys, and `MakeRoomForWrite` returns after at most one rotation, with room in the memtable, unless
it has to make a memtable whose memory does not start at zero. -/
theorem sizesExact_of_run {as : List Action} {w : World}
    (hall : Machine.Along World.step KeepsSizes World.start as)
    (hrun : Machine.run World.step World.start as = .ok w) :
    ∀ db, w.db = some db → db.SizesExact ∧ ∀ size₀, db.RoomMade size₀ ↔
      (kMaxMemtableSize ≤ db.memtable.estimatedSize → db.immutableMemtable = none →
        u64 size₀ = 0) := by
  have hexact : ∀ db, w.db = some db → db.SizesExact :=
    Machine.run_invariant (fun _ _ _ h ha hstep => sizesExact_step h ha hstep)
      (fun _ h => by cases h) hall hrun
  intro db hdb
  exact ⟨hexact db hdb, fun size₀ => DBimpl.roomMade_iff (hexact db hdb)⟩

/-- A write that fills the memtable, and one that finds it full. -/
def fillMemtable : List Action :=
  [.create ⟨0, false, 0⟩, .write [.put [97] (List.replicate 4096 49)] 0 flatHeights,
    .write [.put [98] [50]] 0 flatHeights]

/-- After the rotation the memtable holds the second write only. -/
theorem sizesExact_of_run_fillMemtable :
    ∃ w db, Machine.run World.step World.start fillMemtable = .ok w ∧ w.db = some db ∧
      db.immutableMemtable.isSome = true ∧ db.memtable.estimatedSize = 12 ∧ db.SizesExact ∧
      db.RoomMade 0 := by
  have hrun : (Machine.run World.step World.start fillMemtable).map
      (fun w => w.db.map fun db => (db.immutableMemtable.isSome, db.memtable.size)) =
      .ok (some (true, 12)) := by
    decide +kernel
  obtain ⟨w, hw, hdata⟩ := Exec.exists_of_map hrun
  obtain ⟨db, hdb, hsizes⟩ := Option.map_eq_some_iff.1 hdata
  obtain ⟨himm, hsize⟩ := Prod.mk.inj hsizes
  have hall : Machine.Along World.step KeepsSizes World.start fillMemtable :=
    ⟨rfl, fun _ _ => ⟨⟨by decide +kernel, fun _ _ _ => rfl⟩, fun _ _ =>
      ⟨⟨by decide, fun _ _ _ => rfl⟩, fun _ _ => trivial⟩⟩⟩
  obtain ⟨hexact, hroom⟩ := sizesExact_of_run hall hw db hdb
  exact ⟨w, db, hw, hdb, himm, hsize, hexact, (hroom 0).2 fun _ _ => rfl⟩

/-- A new database whose memory holds the number 4096: its empty memtable is full, and so is the one
that a rotation makes of the same memory. -/
theorem sizes_inexact_uninitialised :
    ∃ w db, Machine.run World.step World.start [.create ⟨4096, false, 0⟩] = .ok w ∧
      w.db = some db ∧ db.immutableMemtable = none ∧ ¬ db.memtable.SizeExact ∧
      db.makeRoomForWrite 4096 = .error .blocked :=
  ⟨{ World.start with db := some (.fresh ⟨4096, false, 0⟩) }, .fresh ⟨4096, false, 0⟩, rfl, rfl,
    rfl, by unfold Memtable.SizeExact; decide, by decide⟩

end KoishiDB
