import KoishiDB.Db.Manifest
import KoishiDB.Db.Session

/-!
# Closing a database

The destructor holds `rwlock_` only in its first part; the final flush runs without it.  So detached
compaction threads can run between its steps, and here the destructor is a sequence of steps that
interleave with them.

The destructor assigns `memtable_` to `immutable_memtable_` without looking at what is there.  A
rotated memtable whose compaction thread has not run yet is dropped that way
(`close_drops_immutable`).  If there is none, every entry of the session is passed to `TableBuilder`
for exactly one of the listed tables (`close_loses_nothing`), whatever the interleaving: a thread
that runs between the assignment and the end of the flush would delete the memtable that the
destructor is about to use, and such a run does not come to its end.
-/

namespace KoishiDB

/-- How far the destructor has come. -/
inductive Phase where
  /-- It has not been called. -/
  | running
  /-- Behind `rwlock_.unlock()`. -/
  | unlocked
  /-- Behind `immutable_memtable_ = memtable_`. -/
  | retired
  /-- Behind `CompactMemtable()`. -/
  | compacted
  /-- Behind `immutable_memtable_ = nullptr`. -/
  | cleared
  /-- At its end. -/
  | finished
deriving Repr, DecidableEq

/-- A session: the database, the destructor and the history. -/
structure Closing where
  db : DBimpl
  phase : Phase
  /-- `memtable_` points to a memtable that was deleted. -/
  deleted : Bool
  /-- The entries inserted into memtables, in order. -/
  inserted : List Entry
  /-- The file metas pushed, each with the pairs passed to `TableBuilder::Add` for it. -/
  tables : List (FileMeta × List (Bytes × Bytes))
  /-- What has happened to the manifest. -/
  manifest : FileEffect

/-- A step of a writer, of a detached thread or of the destructor. -/
inductive CloseAction where
  | write (ops : List WriteOp) (size₀ : ℕ) (heights : Heights)
  | backGroundCall (env : BuildEnv)
  | lock
  | retire
  | compact (env : BuildEnv)
  | clear
  | finish (env : BuildEnv)

namespace Closing

/-- The start of a session. -/
def start (db : DBimpl) : Closing := ⟨db, .running, false, [], [], .untouched⟩

/-- The step belongs to the given point of the destructor. -/
def expect (s : Closing) (phase : Phase) : Exec Unit :=
  if s.phase = phase then .ok () else .error .blocked

/-- `immutable_memtable_` and `memtable_` are the same memtable. -/
def aliased (s : Closing) : Bool := s.phase = .retired || s.phase = .compacted

/-- The file meta that a compaction of `db` pushes, with the pairs of its table. -/
def pushed (db : DBimpl) (r : BuildResult) : FileMeta × List (Bytes × Bytes) :=
  ({ r.fileMeta with number := db.sstableNumber }, r.added)

/-- The machine. -/
def step (s : Closing) : CloseAction → Exec Closing
  | .write ops size₀ heights => do
    s.expect .running
    let batch ← WriteBatch.build ops
    let (db, es) ← s.db.write size₀ heights batch
    return { s with db, inserted := s.inserted ++ es }
  | .backGroundCall env => do
    if s.db.tasks = 0 then throw .blocked
    if s.phase = .finished then throw .nullptr
    let (db, r) ← s.db.backGroundCall env
    match r with
    | none => return { s with db }
    | some r => return { s with
        db
        tables := s.tables ++ [pushed s.db r]
        deleted := s.deleted || (s.aliased && r.status.ok) }
  | .lock => do
    s.expect .running
    let db ← s.db.awaitCompaction
    return { s with db, phase := .unlocked }
  | .retire => do
    s.expect .unlocked
    return { s with db := s.db.retireMemtable, phase := .retired }
  | .compact env => do
    s.expect .retired
    let (db, r) ← s.db.compactMemtable env
    return { s with db, phase := .compacted, tables := s.tables ++ [pushed s.db r] }
  | .clear => do
    s.expect .compacted
    return { s with db := { s.db with immutableMemtable := none }, phase := .cleared }
  | .finish env => do
    s.expect .cleared
    if s.deleted then throw .nullptr
    let manifest ← s.db.dumpManifest env
    Exec.require (s.db.immutableMemtable = none) "immutable_memtable_ == nullptr"
    return { s with phase := .finished, manifest }

theorem expect_eq_ok {s : Closing} {phase : Phase} {u : Unit} :
    s.expect phase = .ok u ↔ s.phase = phase := by
  unfold expect
  split <;> simp_all

end Closing

/-- **Close loses no write.**  Every entry inserted was passed to `TableBuilder` for exactly one of
the tables pushed, and the manifest lists these behind the tables from before. -/
structure NothingLost (metas : List FileMeta) (s : Closing) : Prop where
  once : ∀ e ∈ s.inserted, (s.tables.countP fun t => decide (e.pair ∈ t.2)) = 1
  listed : s.db.fileMetas = metas ++ s.tables.map Prod.fst
  dumped : s.manifest = .written (DBimpl.manifestBytes s.db.fileMetas s.db.lastSequence)

/-- The operations can be stored and have 56-bit sequence numbers, file operations succeed, and the
destructor finds no immutable memtable with entries. -/
def KeepsMemtables (s : Closing) : CloseAction → Prop
  | .write ops _ _ => (∀ op ∈ ops, op.Fits) ∧ s.db.lastSequence + ops.length < 2 ^ 56
  | .backGroundCall env => env.Succeeds
  | .lock => True
  | .retire => ∀ imm, s.db.immutableMemtable = some imm → imm.table.nodes = []
  | .compact env => env.Succeeds
  | .clear => True
  | .finish env => env.Succeeds

/-! ### Pairs -/

/-- Entries with the same pair have the same sequence number. -/
theorem seq_eq_of_pair_eq {e e' : Entry} (h : e.Fits) (h' : e'.Fits) (hp : e.pair = e'.pair) :
    e.seq = e'.seq := by
  have hk : e.internalKey = e'.internalKey := congrArg Prod.fst hp
  have := congrArg (fun k : Bytes => extractUserKey k) hk
  simp only [Entry.internalKey, extractUserKey_create, Except.ok.injEq, Prod.mk.injEq,
    storedSeq_of_lt h.2, storedSeq_of_lt h'.2, Option.some.injEq] at this
  exact this.2

/-- In a list of lists without repetitions, an element is in exactly one of the lists. -/
theorem countP_mem_eq_one {α β : Type} [BEq α] [LawfulBEq α] {f : β → List α} {L : List β} {x : α}
    (hnodup : (L.flatMap f).Nodup) (hx : x ∈ L.flatMap f) :
    (L.countP fun b => decide (x ∈ f b)) = 1 := by
  induction L with
  | nil => cases hx
  | cons b L ih =>
    rw [List.flatMap_cons, List.nodup_append] at hnodup
    obtain ⟨-, hL, hdisj⟩ := hnodup
    rw [List.flatMap_cons, List.mem_append] at hx
    by_cases hb : x ∈ f b
    · have hrest : (L.countP fun b => decide (x ∈ f b)) = 0 := by
        rw [List.countP_eq_zero]
        intro c hc hxc
        exact hdisj x hb x (List.mem_flatMap.2 ⟨c, hc, of_decide_eq_true hxc⟩) rfl
      rw [List.countP_cons_of_pos (by simpa using hb), hrest]
    · rw [List.countP_cons_of_neg (by simpa using hb)]
      exact ih hL (hx.resolve_left hb)

/-! ### The invariant -/

namespace Closing

/-- All entries are accounted for: those of the tables pushed, and the pending ones. -/
def Split (s : Closing) (pending : List Entry) : Prop :=
  ∃ ts : List Entry, s.tables.flatMap Prod.snd = ts.map Entry.pair ∧ (ts ++ pending).Perm s.inserted

/-- The entries of the immutable memtable, if there is one. -/
def ImmutableHolds (db : DBimpl) (es : List Entry) : Prop :=
  match db.immutableMemtable with
  | none => es = []
  | some imm => Holds imm es

/-- Where the entries are, at each point of the destructor. -/
def Pending (s : Closing) : Prop :=
  match s.phase with
  | .running | .unlocked => ∃ is ms, ImmutableHolds s.db is ∧ Holds s.db.memtable ms ∧
      s.Split (is ++ ms)
  | .retired => s.deleted = true ∧ s.db.immutableMemtable = none ∨
      ∃ ms, s.db.immutableMemtable = some s.db.memtable ∧ Holds s.db.memtable ms ∧ s.Split ms
  | .compacted => s.deleted = true ∨ s.Split []
  | .cleared => s.db.immutableMemtable = none ∧ (s.deleted = true ∨ s.Split [])
  | .finished => s.Split [] ∧
      s.manifest = .written (DBimpl.manifestBytes s.db.fileMetas s.db.lastSequence)

/-- What every step keeps. -/
structure Accounted (metas : List FileMeta) (s : Closing) : Prop where
  fits : ∀ e ∈ s.inserted, e.Fits
  increasing : (s.inserted.map Entry.seq).Pairwise (· < ·)
  le_last : ∀ e ∈ s.inserted, e.seq ≤ s.db.lastSequence
  listed : s.db.fileMetas = metas ++ s.tables.map Prod.fst
  pending : s.Pending

variable {metas : List FileMeta} {s s' : Closing}

theorem Split.mem {pending : List Entry} (h : s.Split pending) :
    ∀ e ∈ pending, e ∈ s.inserted := by
  obtain ⟨ts, -, hperm⟩ := h
  exact fun e he => hperm.mem_iff.1 (List.mem_append_right _ he)

/-- A table is pushed with some of the pending entries. -/
theorem Split.push {pending rest es : List Entry} (h : s.Split pending)
    {t : FileMeta × List (Bytes × Bytes)} (ht : t.2 = es.map Entry.pair)
    (hperm : (es ++ rest).Perm pending) {s' : Closing} (htables : s'.tables = s.tables ++ [t])
    (hinserted : s'.inserted = s.inserted) : s'.Split rest := by
  obtain ⟨ts, hts, hp⟩ := h
  refine ⟨ts ++ es, ?_, ?_⟩
  · rw [htables, List.flatMap_append, hts, List.flatMap_singleton, ht, List.map_append]
  · rw [hinserted, List.append_assoc]
    exact (hperm.append_left ts).trans hp

/-- **At the end nothing is lost.** -/
theorem Accounted.nothingLost (h : Accounted metas s) (hphase : s.phase = .finished) :
    NothingLost metas s := by
  have hpending := h.pending
  rw [Pending, hphase] at hpending
  obtain ⟨⟨ts, hts, hperm⟩, hman⟩ := hpending
  rw [List.append_nil] at hperm
  refine ⟨fun e he => countP_mem_eq_one (f := Prod.snd) ?_ ?_, h.listed, hman⟩
  · -- distinct sequence numbers make distinct pairs
    rw [hts]
    refine ((hperm.map Entry.pair).nodup_iff).2 ?_
    have hseq : s.inserted.Pairwise fun a b => a.seq < b.seq := List.pairwise_map.1 h.increasing
    refine List.pairwise_map.2 (hseq.imp_of_mem ?_)
    intro a b ha hb hlt heq
    exact hlt.ne (seq_eq_of_pair_eq (h.fits a ha) (h.fits b hb) heq)
  · rw [hts]
    exact List.mem_map_of_mem (hperm.mem_iff.2 he)

theorem accounted_start {u : Uninit} {manifest : Option Bytes} {db : DBimpl}
    (h : DBimpl.make u manifest = .ok db) : Accounted db.fileMetas (start db) := by
  obtain ⟨-, hmem, himm, -⟩ := DBimpl.make_frame h
  refine ⟨by simp [start], by simp [start], by simp [start], by simp [start], ?_⟩
  refine ⟨[], [], ?_, ?_, [], rfl, .nil⟩
  · change ImmutableHolds db []
    rw [ImmutableHolds, himm]
  · change Holds db.memtable []
    rw [hmem]
    exact .make _

/-! ### The steps -/

theorem Accounted.makeRoom {db : DBimpl} {size₀ : ℕ} (h : Accounted metas s)
    (hphase : s.phase = .running) (hroom : s.db.makeRoomForWrite size₀ = .ok db) :
    Accounted metas { s with db } := by
  rcases DBimpl.makeRoomForWrite_eq_ok.1 hroom with ⟨-, rfl⟩ | ⟨-, himm, -, rfl⟩
  · exact h
  · have hpending := h.pending
    rw [Pending, hphase] at hpending
    obtain ⟨is, ms, his, hms, hsplit⟩ := hpending
    rw [ImmutableHolds, himm] at his
    have his : is = [] := his
    subst his
    refine ⟨h.fits, h.increasing, ?_, ?_, ?_⟩
    · simpa using h.le_last
    · simpa using h.listed
    · rw [Pending]
      simp only [hphase]
      refine ⟨ms, [], ?_, ?_, by rw [List.append_nil]; exact hsplit⟩
      · rw [ImmutableHolds, DBimpl.rotate_immutableMemtable]
        exact hms
      · rw [DBimpl.rotate_memtable]
        exact .make _

theorem Accounted.write {ops : List WriteOp} {size₀ : ℕ} {heights : Heights}
    (h : Accounted metas s) (hops : ∀ op ∈ ops, op.Fits)
    (hlt : s.db.lastSequence + ops.length < 2 ^ 56)
    (hstep : s.step (.write ops size₀ heights) = .ok s') : Accounted metas s' := by
  obtain ⟨_, hphase, hstep⟩ := Exec.bind_eq_ok.1 hstep
  have hphase := expect_eq_ok.1 hphase
  obtain ⟨batch, hbatch, hstep⟩ := Exec.bind_eq_ok.1 hstep
  obtain ⟨⟨db', es⟩, hwrite, hstep⟩ := Exec.bind_eq_ok.1 hstep
  cases hstep
  obtain ⟨db₁, m, w, hroom, -, hw, hins, rfl⟩ :=
    DBimpl.write_encodes (encodes_build hbatch) hlt hwrite
  have h₁ := h.makeRoom hphase hroom
  have hpending := h₁.pending
  rw [Pending] at hpending
  simp only [hphase] at hpending
  obtain ⟨is, ms, his, hms, hsplit⟩ := hpending
  -- the new entries have larger sequence numbers than all that the memtable holds
  have hold : ∀ e ∈ ms, e.seq ≤ s.db.lastSequence := fun e he =>
    h.le_last e (hsplit.mem e (List.mem_append_right _ he))
  obtain ⟨m', hins', hm', -⟩ := insertAll_spec heights hw hops hms hold hlt
  cases hins.symm.trans hins'
  refine ⟨?_, ?_, ?_, h₁.listed, ?_⟩
  · intro e he
    rcases List.mem_append.1 he with he | he
    · exact h.fits e he
    · exact hm'.fits e (List.mem_append_right _ he)
  · rw [List.map_append, List.pairwise_append]
    refine ⟨h.increasing, ?_, ?_⟩
    · rw [map_seq_entries]
      exact List.pairwise_lt_range'
    · intro a ha b hb
      obtain ⟨e, he, rfl⟩ := List.mem_map.1 ha
      obtain ⟨e', he', rfl⟩ := List.mem_map.1 hb
      have h1 := h.le_last e he
      have h2 := (seq_of_mem_entries he').1
      exact h1.trans_lt h2
  · intro e he
    rcases List.mem_append.1 he with he | he
    · exact (h.le_last e he).trans (Nat.le_add_right ..)
    · exact (seq_of_mem_entries he).2
  · rw [Pending]
    simp only [hphase]
    obtain ⟨ts, hts, hperm⟩ := hsplit
    refine ⟨is, ms ++ WriteOp.entries s.db.lastSequence ops, his, hm', ts, hts, ?_⟩
    have := hperm.append_right (WriteOp.entries s.db.lastSequence ops)
    simpa only [List.append_assoc] using this

/-- What a compaction of a memtable that holds entries does. -/
theorem compactMemtable_spec {db db' : DBimpl} {imm : Memtable} {es : List Entry} {env : BuildEnv}
    {r : BuildResult} (himm : db.immutableMemtable = some imm) (hes : Holds imm es)
    (hs : env.Succeeds) (h : db.compactMemtable env = .ok (db', r)) :
    (∃ es' : List Entry, r.added = es'.map Entry.pair ∧ es'.Perm es) ∧ r.status.ok = true := by
  obtain ⟨imm', it, himm', hit, hbuild, -⟩ := DBimpl.compactMemtable_cases h
  cases himm.symm.trans himm'
  obtain ⟨es', hperm, -, -, hadded, -⟩ := hes.buildTable_cases hit hs.1 hbuild
  exact ⟨⟨es', hadded, hperm⟩, Status.ok_eq_true_iff.2 ((buildTable_any hbuild).2 hs)⟩

/-- A background call with nothing to do. -/
theorem Accounted.idle (h : Accounted metas s) :
    Accounted metas { s with
      db := { s.db with backgroundCompactionSchedule := false, tasks := s.db.tasks - 1 } } := by
  have hpending := h.pending
  refine ⟨h.fits, h.increasing, h.le_last, h.listed, ?_⟩
  rw [Pending] at hpending ⊢
  cases hphase : s.phase <;> simp only [hphase] at hpending ⊢ <;> exact hpending

/-- A background call that builds a table. -/
theorem Accounted.flush {env : BuildEnv} {db : DBimpl} {r : BuildResult} (h : Accounted metas s)
    (hs : env.Succeeds) (hunfinished : s.phase ≠ .finished)
    (hcomp : s.db.compactMemtable env = .ok (db, r)) :
    Accounted metas { s with
      db := { db with
        immutableMemtable := if r.status.ok then none else db.immutableMemtable
        backgroundCompactionSchedule := false
        tasks := db.tasks - 1 }
      tables := s.tables ++ [pushed s.db r]
      deleted := s.deleted || (s.aliased && r.status.ok) } := by
  obtain ⟨imm, it, himm, hit, hbuild, rfl⟩ := DBimpl.compactMemtable_cases hcomp
  have hok : r.status.ok = true := Status.ok_eq_true_iff.2 ((buildTable_any hbuild).2 hs)
  have hpending := h.pending
  refine ⟨h.fits, h.increasing, h.le_last, ?_, ?_⟩
  · change s.db.fileMetas ++ _ = metas ++ (s.tables ++ _).map Prod.fst
    rw [h.listed, List.map_append, List.append_assoc]
    rfl
  · rw [Pending] at hpending ⊢
    simp only [hok, ↓reduceIte, Bool.and_true]
    -- before the assignment the immutable memtable is on its own; after it, the destructor loses
    -- its memtable
    have hrun : (s.phase = .running ∨ s.phase = .unlocked) → ∃ is ms, ImmutableHolds s.db is ∧
        Holds s.db.memtable ms ∧ s.Split (is ++ ms) := by
      rintro (hphase | hphase) <;> simpa only [hphase] using hpending
    have hflushed : (s.phase = .running ∨ s.phase = .unlocked) → ∃ ms, Holds s.db.memtable ms ∧
        Split { s with tables := s.tables ++ [pushed s.db r] } ms := by
      intro hphase
      obtain ⟨is, ms, his, hms, hsplit⟩ := hrun hphase
      rw [ImmutableHolds, himm] at his
      obtain ⟨⟨es', hadded, hperm⟩, -⟩ := compactMemtable_spec himm his hs hcomp
      exact ⟨ms, hms, hsplit.push hadded (hperm.append_right ms) rfl rfl⟩
    cases hphase : s.phase with
    | running =>
      obtain ⟨ms, hms, hsplit⟩ := hflushed (.inl hphase)
      exact ⟨[], ms, rfl, hms, hsplit⟩
    | unlocked =>
      obtain ⟨ms, hms, hsplit⟩ := hflushed (.inr hphase)
      exact ⟨[], ms, rfl, hms, hsplit⟩
    | retired => exact .inl ⟨by simp [aliased, hphase], trivial⟩
    | compacted => exact .inl (by simp [aliased, hphase])
    | cleared =>
      simp only [hphase] at hpending
      rw [himm] at hpending
      cases hpending.1
    | finished => exact absurd hphase hunfinished

theorem Accounted.backGroundCall {env : BuildEnv} (h : Accounted metas s) (hs : env.Succeeds)
    (hstep : s.step (.backGroundCall env) = .ok s') : Accounted metas s' := by
  simp only [step] at hstep
  split at hstep
  · cases hstep
  · split at hstep
    · cases hstep
    · rename_i hphase
      obtain ⟨⟨db, r⟩, hcall, hstep⟩ := Exec.bind_eq_ok.1 hstep
      rcases DBimpl.backGroundCall_cases hcall with ⟨-, rfl, rfl⟩ | ⟨db₁, r₁, rfl, hcomp, rfl⟩
      · cases hstep
        exact h.idle
      · cases hstep
        exact h.flush hs hphase hcomp

theorem Accounted.lock (h : Accounted metas s) (hstep : s.step .lock = .ok s') :
    Accounted metas s' := by
  obtain ⟨_, hphase, hstep⟩ := Exec.bind_eq_ok.1 hstep
  have hphase := expect_eq_ok.1 hphase
  obtain ⟨db, hdb, hstep⟩ := Exec.bind_eq_ok.1 hstep
  cases hstep
  unfold DBimpl.awaitCompaction at hdb
  split at hdb
  · cases hdb
  · cases hdb
    have hpending := h.pending
    rw [Pending] at hpending
    simp only [hphase] at hpending
    exact ⟨h.fits, h.increasing, h.le_last, h.listed, hpending⟩

theorem Accounted.retire (h : Accounted metas s)
    (hempty : ∀ imm, s.db.immutableMemtable = some imm → imm.table.nodes = [])
    (hstep : s.step .retire = .ok s') : Accounted metas s' := by
  obtain ⟨_, hphase, hstep⟩ := Exec.bind_eq_ok.1 hstep
  have hphase := expect_eq_ok.1 hphase
  cases hstep
  have hpending := h.pending
  rw [Pending] at hpending
  simp only [hphase] at hpending
  obtain ⟨is, ms, his, hms, hsplit⟩ := hpending
  have hnil : is = [] := by
    rw [ImmutableHolds] at his
    cases himm : s.db.immutableMemtable with
    | none => rw [himm] at his; exact his
    | some imm =>
      rw [himm] at his
      have hnodes := his.nodes
      rw [hempty imm himm] at hnodes
      exact List.map_eq_nil_iff.1 hnodes.symm
  rw [hnil, List.nil_append] at hsplit
  exact ⟨h.fits, h.increasing, h.le_last, h.listed, .inr ⟨ms, rfl, hms, hsplit⟩⟩

theorem Accounted.compact {env : BuildEnv} (h : Accounted metas s) (hs : env.Succeeds)
    (hstep : s.step (.compact env) = .ok s') : Accounted metas s' := by
  obtain ⟨_, hphase, hstep⟩ := Exec.bind_eq_ok.1 hstep
  have hphase := expect_eq_ok.1 hphase
  obtain ⟨⟨db, r⟩, hcomp, hstep⟩ := Exec.bind_eq_ok.1 hstep
  cases hstep
  have hpending := h.pending
  rw [Pending] at hpending
  simp only [hphase] at hpending
  have hcases := DBimpl.compactMemtable_cases hcomp
  obtain ⟨imm, it, himm, -, -, rfl⟩ := hcases
  rcases hpending with ⟨-, hnone⟩ | ⟨ms, halias, hms, hsplit⟩
  · rw [hnone] at himm
    cases himm
  · obtain ⟨⟨es', hadded, hperm⟩, -⟩ := compactMemtable_spec halias hms hs hcomp
    refine ⟨h.fits, h.increasing, h.le_last, ?_, .inr ?_⟩
    · change s.db.fileMetas ++ _ = metas ++ (s.tables ++ _).map Prod.fst
      rw [h.listed, List.map_append, List.append_assoc]
      rfl
    · exact hsplit.push hadded (by rw [List.append_nil]; exact hperm) rfl rfl

theorem Accounted.clear (h : Accounted metas s) (hstep : s.step .clear = .ok s') :
    Accounted metas s' := by
  obtain ⟨_, hphase, hstep⟩ := Exec.bind_eq_ok.1 hstep
  have hphase := expect_eq_ok.1 hphase
  cases hstep
  have hpending := h.pending
  rw [Pending] at hpending
  simp only [hphase] at hpending
  exact ⟨h.fits, h.increasing, h.le_last, h.listed, rfl, hpending⟩

theorem Accounted.finish {env : BuildEnv} (h : Accounted metas s) (hs : env.Succeeds)
    (hstep : s.step (.finish env) = .ok s') : Accounted metas s' := by
  obtain ⟨_, hphase, hstep⟩ := Exec.bind_eq_ok.1 hstep
  have hphase := expect_eq_ok.1 hphase
  dsimp only at hstep
  split at hstep
  · cases hstep
  · rename_i hdeleted
    obtain ⟨manifest, hdump, hstep⟩ := Exec.bind_eq_ok.1 hstep
    obtain ⟨_, -, hstep⟩ := Exec.bind_eq_ok.1 hstep
    cases hstep
    have hpending := h.pending
    rw [Pending] at hpending
    simp only [hphase] at hpending
    exact ⟨h.fits, h.increasing, h.le_last, h.listed, hpending.2.resolve_left hdeleted,
      DBimpl.dumpManifest_spec hs hdump⟩

theorem accounted_step {a : CloseAction} (h : Accounted metas s) (ha : KeepsMemtables s a)
    (hstep : s.step a = .ok s') : Accounted metas s' := by
  cases a with
  | write ops size₀ heights => exact h.write ha.1 ha.2 hstep
  | backGroundCall env => exact h.backGroundCall ha hstep
  | lock => exact h.lock hstep
  | retire => exact h.retire ha hstep
  | compact env => exact h.compact ha hstep
  | clear => exact h.clear hstep
  | finish env => exact h.finish ha hstep

end Closing

/-- **Close loses no write**, in every interleaving of writers, compaction threads and destructor
in which the destructor finds no immutable memtable with entries. -/
theorem close_loses_nothing {u : Uninit} {manifest : Option Bytes} {db : DBimpl}
    (hmake : DBimpl.make u manifest = .ok db) {as : List CloseAction} {s : Closing}
    (hall : Machine.Along Closing.step KeepsMemtables (.start db) as)
    (hrun : Machine.run Closing.step (.start db) as = .ok s) (hphase : s.phase = .finished) :
    NothingLost db.fileMetas s :=
  (Machine.run_invariant (fun _ _ _ h ha hstep => Closing.accounted_step h ha hstep)
    (Closing.accounted_start hmake) hall hrun).nothingLost hphase

/-- The steps of the destructor behind the first one. -/
def finalFlush : List CloseAction := [.retire, .compact .accepting, .clear, .finish .accepting]

/-- Two writes, the second of which finds the memtable full; the compaction thread runs before the
destructor. -/
def compactThenClose : List CloseAction :=
  [.write [.put [97] [49]] 0 flatHeights] ++
    ([.write [.put [98] [50]] 0 flatHeights, .backGroundCall .accepting, .lock] ++ finalFlush)

/-- Both writes are in a table. -/
theorem close_loses_nothing_compacted :
    ∃ s, Machine.run Closing.step (.start (.fresh ⟨4095, false, 0⟩)) compactThenClose = .ok s ∧
      s.phase = .finished ∧ s.inserted.length = 2 ∧ NothingLost [] s := by
  have hrun : (Machine.run Closing.step (.start (.fresh ⟨4095, false, 0⟩)) compactThenClose).map
      (fun s => (s.phase, s.inserted.length)) = .ok (.finished, 2) := by
    decide +kernel
  have hfirst : (Machine.run Closing.step (.start (.fresh ⟨4095, false, 0⟩))
      [.write [.put [97] [49]] 0 flatHeights]).map (fun s => s.db.lastSequence) = .ok 2 := by
    decide +kernel
  have hlock : (Machine.run Closing.step (.start (.fresh ⟨4095, false, 0⟩))
      ([.write [.put [97] [49]] 0 flatHeights] ++ [.write [.put [98] [50]] 0 flatHeights,
        .backGroundCall .accepting, .lock])).map
      (fun s => s.db.immutableMemtable.isNone) = .ok true := by
    decide +kernel
  obtain ⟨s, hs, hdata⟩ := Exec.exists_of_map hrun
  obtain ⟨hphase, hlen⟩ := Prod.mk.inj hdata
  obtain ⟨s₁, hs₁, hlast⟩ := Exec.exists_of_map hfirst
  obtain ⟨s₂, hs₂, himm⟩ := Exec.exists_of_map hlock
  have hacc := BuildEnv.accepting_succeeds
  have hall : Machine.Along Closing.step KeepsMemtables (.start (.fresh ⟨4095, false, 0⟩))
      compactThenClose := by
    refine Machine.along_append.2 ⟨⟨⟨by decide, by decide⟩, fun _ _ => trivial⟩, ?_⟩
    intro t ht
    cases ht.symm.trans hs₁
    refine Machine.along_append.2 ⟨⟨⟨by decide, ?_⟩, fun _ _ => ⟨hacc, fun _ _ => ⟨trivial,
      fun _ _ => trivial⟩⟩⟩, ?_⟩
    · rw [hlast]
      decide
    · intro t ht
      cases (Machine.run_append_ok.2 ⟨_, hs₁, ht⟩).symm.trans hs₂
      refine ⟨?_, fun _ _ => ⟨hacc, fun _ _ => ⟨trivial, fun _ _ => ⟨hacc,
        fun _ _ => trivial⟩⟩⟩⟩
      intro imm h
      rw [h] at himm
      cases himm
  have hmake : DBimpl.make ⟨4095, false, 0⟩ none = .ok (.fresh ⟨4095, false, 0⟩) := rfl
  exact ⟨s, hs, hphase, hlen, close_loses_nothing hmake hall hs hphase⟩

/-- A value that fills the memtable, a second write, and the destructor before the compaction
thread: the first write is in no table. -/
theorem close_drops_immutable :
    ∃ s, Machine.run Closing.step (.start (.fresh ⟨0, false, 0⟩))
        ([.write [.put [97] (List.replicate 4096 49)] 0 flatHeights,
          .write [.put [98] [50]] 0 flatHeights, .lock] ++ finalFlush) = .ok s ∧
      s.phase = .finished ∧ ¬ NothingLost [] s := by
  have hrun : (Machine.run Closing.step (.start (.fresh ⟨0, false, 0⟩))
      ([.write [.put [97] (List.replicate 4096 49)] 0 flatHeights,
        .write [.put [98] [50]] 0 flatHeights, .lock] ++ finalFlush)).map
      (fun s => (s.phase, s.inserted.map fun e =>
        s.tables.countP fun t => decide (e.pair ∈ t.2))) = .ok (.finished, [0, 1]) := by
    decide +kernel
  obtain ⟨s, hs, hdata⟩ := Exec.exists_of_map hrun
  obtain ⟨hphase, hcounts⟩ := Prod.mk.inj hdata
  refine ⟨s, hs, hphase, ?_⟩
  intro h
  have hzero : 0 ∈ s.inserted.map fun e => s.tables.countP fun t => decide (e.pair ∈ t.2) := by
    rw [hcounts]
    exact List.mem_cons_self ..
  obtain ⟨e, he, hcount⟩ := List.mem_map.1 hzero
  rw [h.once e he] at hcount
  cases hcount

end KoishiDB
