import KoishiDB.Base.Simulation
import KoishiDB.Db.Flush
import KoishiDB.Db.InMemory

/-!
# What the database is: a store of two generations

Over whole sessions, with compactions and restarts, the database does what the abstract store
`Generations` does: the memtable is the young generation and the immutable memtable the old one,
a compaction forgets the old generation, and a restart forgets everything.  The table files and the
manifest do not contribute to any answer of `Get`.

* `keeps_step` : one step of the database is one step of the store.
* `get_refines_generations` : the simulation, and what `Get` answers in terms of the store.
* `get_answers_from_session` : every answer is the one for a suffix of what was written since the
  database was opened, and for all of it if there was no compaction.
-/

namespace KoishiDB

/-- The actions of a session and those of the store. -/
inductive ActionMatches : Action → GenAction WriteOp → Prop
  | create (u : Uninit) : ActionMatches (.create u) .create
  | write (ops : List WriteOp) (size₀ : ℕ) (heights : Heights) (rotates : Bool) :
      ActionMatches (.write ops size₀ heights) (.write ops rotates)
  | backGroundCall (env : BuildEnv) : ActionMatches (.backGroundCall env) .flush
  | destroy (env manifestEnv : BuildEnv) : ActionMatches (.destroy env manifestEnv) .destroy

/-- The memtables hold the two generations. -/
structure DBimpl.Keeps (db : DBimpl) (g : Generations WriteOp) : Prop where
  young : ∃ s, Holds db.memtable (WriteOp.entries s g.young) ∧
    s + g.young.length = db.lastSequence
  none_iff : db.immutableMemtable = none ↔ g.old = none
  old : ∀ imm ops, db.immutableMemtable = some imm → g.old = some ops →
    ∃ s, Holds imm (WriteOp.entries s ops) ∧ s + ops.length ≤ db.lastSequence

/-- The running database holds what the store remembers. -/
def Remembers (w : World) (t : Option (Generations WriteOp)) : Prop :=
  Served w ∧ (w.db = none ↔ t = none) ∧ ∀ db g, w.db = some db → t = some g → db.Keeps g

namespace DBimpl.Keeps

variable {db db' : DBimpl} {g : Generations WriteOp}

theorem make {u : Uninit} {manifest : Option Bytes} (h : DBimpl.make u manifest = .ok db) :
    db.Keeps .empty := by
  obtain ⟨-, hmem, himm, -⟩ := DBimpl.make_frame h
  refine ⟨⟨db.lastSequence, ?_, rfl⟩, by simp [himm, Generations.empty], ?_⟩
  · rw [hmem]
    exact .make _
  · intro imm ops himm' _
    cases himm.symm.trans himm'

/-- Making room rotates the generations, or does nothing. -/
theorem makeRoom (h : db.Keeps g) {size₀ : ℕ} (hroom : db.makeRoomForWrite size₀ = .ok db') :
    ∃ (rotates : Bool) (g' : Generations WriteOp),
      g.write [] rotates = .ok g' ∧ db'.Keeps g' := by
  rcases makeRoomForWrite_eq_ok.1 hroom with ⟨-, rfl⟩ | ⟨-, himm, -, rfl⟩
  · refine ⟨false, g, ?_, h⟩
    simp [Generations.write]
  · have hold := h.none_iff.1 himm
    obtain ⟨s, hs, hseq⟩ := h.young
    refine ⟨true, { g with old := some g.young, young := [] }, by simp [Generations.write, hold],
      ⟨db.lastSequence, ?_, by simp⟩, by simp, ?_⟩
    · rw [rotate_memtable]
      exact .make _
    · intro imm ops himm' hops
      rw [rotate_immutableMemtable] at himm'
      cases himm'
      cases hops
      exact ⟨s, hs, by simpa using hseq.le⟩

/-- Writing, after there is room. -/
theorem insertAll (h : db.Keeps g) {heights : Heights} {w : WriteBatch} {ops : List WriteOp}
    {m : Memtable} {es : List Entry} (hw : Encodes w db.lastSequence ops)
    (hfits : ∀ op ∈ ops, op.Fits) (hlt : db.lastSequence + ops.length < 2 ^ 56)
    (hins : w.insertAll db.memtable heights = .ok (m, es)) :
    Keeps { db with memtable := m, lastSequence := db.lastSequence + ops.length }
      { g with young := g.young ++ ops } := by
  obtain ⟨s, hs, hseq⟩ := h.young
  have hold : ∀ e ∈ WriteOp.entries s g.young, e.seq ≤ db.lastSequence := by
    intro e he
    have hle := (seq_of_mem_entries he).2
    omega
  obtain ⟨m', hins', hm', -⟩ := insertAll_spec heights hw hfits hs hold hlt
  cases hins.symm.trans hins'
  refine ⟨⟨s, ?_, ?_⟩, h.none_iff, ?_⟩
  · rw [entries_append, hseq]
    exact hm'
  · dsimp only
    rw [List.length_append, ← hseq]
    omega
  · intro imm ops' himm hops'
    obtain ⟨s', hs', hle⟩ := h.old imm ops' himm hops'
    exact ⟨s', hs', Nat.le_add_right_of_le hle⟩

/-- A call of `Write` is a write to the store. -/
theorem write (h : db.Keeps g) {size₀ : ℕ} {heights : Heights} {batch : WriteBatch}
    {ops : List WriteOp} {es : List Entry} (hbatch : WriteBatch.build ops = .ok batch)
    (hfits : ∀ op ∈ ops, op.Fits) (hlt : db.lastSequence + ops.length < 2 ^ 56)
    (hwrite : db.write size₀ heights batch = .ok (db', es)) :
    ∃ (rotates : Bool) (g' : Generations WriteOp),
      g.write ops rotates = .ok g' ∧ db'.Keeps g' := by
  obtain ⟨db₁, m, w, hroom, hlast, hw, hins, rfl⟩ :=
    write_encodes (encodes_build hbatch) hlt hwrite
  obtain ⟨rotates, g₁, hg₁, h₁⟩ := h.makeRoom hroom
  rw [← hlast] at hw hlt ⊢
  refine ⟨rotates, { g₁ with young := g₁.young ++ ops }, ?_, h₁.insertAll hw hfits hlt hins⟩
  cases rotates with
  | false =>
    simp only [Generations.write, Bool.false_eq_true, ↓reduceIte, List.append_nil] at hg₁
    cases hg₁
    rfl
  | true =>
    simp only [Generations.write, ↓reduceIte] at hg₁ ⊢
    split_ifs at hg₁ with hold
    cases hg₁
    rw [if_pos hold]
    rfl

/-- A compaction that succeeds flushes the store. -/
theorem flush (h : db.Keeps g) (hmem : db'.memtable = db.memtable)
    (himm : db'.immutableMemtable = none) (hlast : db'.lastSequence = db.lastSequence) :
    db'.Keeps g.flush := by
  refine ⟨?_, by simp [himm, Generations.flush], ?_⟩
  · rw [hmem, hlast]
    exact h.young
  · intro imm ops himm' _
    cases himm.symm.trans himm'

/-- **What `Get` answers**, in terms of the store. -/
theorem get_eq {files : ℕ → Option Bytes} (h : db.Keeps g) (hserving : Serving files db)
    {k : Bytes} (hk : KeyFits k []) :
    db.get files k = .ok ((lastCutTo k g.remembered).map WriteOp.stored) := by
  have hlt := hserving.lt
  have hmax := storedSeq_lt UINT64_MAX
  obtain ⟨s, hs, hseq⟩ := h.young
  have hyoung := get_seekKey hs hk (by omega)
  have hold : db.searchImmutable k = .ok ((lastCutTo k (g.old.getD [])).map WriteOp.stored) := by
    unfold searchImmutable
    cases himm : db.immutableMemtable with
    | none =>
      rw [h.none_iff.1 himm]
      rfl
    | some imm =>
      cases hops : g.old with
      | none => cases himm.symm.trans (h.none_iff.2 hops)
      | some ops =>
        obtain ⟨s', hs', hle⟩ := h.old imm ops himm hops
        rw [Option.getD_some]
        exact get_seekKey hs' hk (by omega)
  rw [hserving.get_eq hyoung hold, Generations.remembered, lastCutTo, lastCutTo, lastCutTo,
    lastWhere_append]
  cases lastWhere (fun key => cString key == k) g.young <;> rfl

end DBimpl.Keeps

/-! ### The simulation -/

theorem remembers_start : Remembers World.start none :=
  ⟨.inl rfl, by simp [World.start], fun _ _ h => by cases h⟩

/-- **One step of the database is one step of the store.** -/
theorem keeps_step {w w' : World} {a : Action} {t : Option (Generations WriteOp)}
    (h : Remembers w t) (ha : KeepsTables w a) (hstep : w.step a = .ok w') :
    ∃ m t', ActionMatches a m ∧ Generations.step t m = .ok t' ∧ Remembers w' t' := by
  obtain ⟨hserved, hnone, hkeeps⟩ := h
  have hserved' := served_step hserved ha hstep
  have hrunning : ∀ {db}, w.db = some db → ∃ g, t = some g ∧ db.Keeps g := by
    intro db hdb
    cases t with
    | none => cases hdb.symm.trans (hnone.2 rfl)
    | some g => exact ⟨g, rfl, hkeeps db g hdb rfl⟩
  rcases World.step_cases hstep with ⟨u, db, rfl, hdb, hmake, rfl⟩ |
    ⟨ops, size₀, heights, db, batch, db', es, rfl, hdb, hbatch, hwrite, rfl⟩ |
    ⟨env, db, db', r, rfl, hdb, -, hcall, rfl⟩ |
    ⟨env, manifestEnv, db, db', r, effect, rfl, hdb, -, hclose, rfl⟩
  · obtain rfl := hnone.1 hdb
    refine ⟨_, _, .create u, rfl, hserved', by simp, ?_⟩
    intro db₁ g₁ hdb₁ hg₁
    cases hdb₁
    cases hg₁
    exact .make hmake
  · obtain ⟨g, rfl, hg⟩ := hrunning hdb
    have hlt := ha.2 db hdb
    have hmax := storedSeq_lt UINT64_MAX
    obtain ⟨rotates, g', hg', hkeeps'⟩ :=
      hg.write hbatch (fun op hop => (ha.1 op hop).fits) (by omega) hwrite
    refine ⟨_, some g', .write ops size₀ heights rotates,
      by simp [Generations.step, hg', Except.map], hserved', by simp, ?_⟩
    intro db₁ g₁ hdb₁ hg₁
    cases hdb₁
    cases hg₁
    exact hkeeps'
  · obtain ⟨g, rfl, hg⟩ := hrunning hdb
    refine ⟨_, some g.flush, .backGroundCall env, rfl, hserved', ?_, ?_⟩
    · rw [World.db_elim_record]
      simp
    intro db₁ g₁ hdb₁ hg₁
    rw [World.db_elim_record] at hdb₁
    cases hdb₁
    cases hg₁
    rcases DBimpl.backGroundCall_cases hcall with ⟨himm, -, rfl⟩ | ⟨db₁, r₁, -, hcomp, rfl⟩
    · exact hg.flush rfl himm rfl
    · obtain ⟨hok, -, hmem, -⟩ := (hserved.running hdb).compactMemtable ha.1 (ha.2 db hdb) hcomp
      obtain ⟨-, -, -, -, -, rfl⟩ := DBimpl.compactMemtable_cases hcomp
      exact hg.flush rfl (by rw [hok]; rfl) rfl
  · obtain ⟨g, rfl, -⟩ := hrunning hdb
    refine ⟨_, none, .destroy env manifestEnv, rfl, hserved', by simp [World.record], ?_⟩
    intro db₁ g₁ _ hg₁
    cases hg₁

/-- Every run of sessions is a run of the store. -/
theorem keeps_of_run {as : List Action} {w : World} {db : DBimpl}
    (hall : Machine.Along World.step KeepsTables World.start as)
    (hrun : Machine.run World.step World.start as = .ok w) (hdb : w.db = some db) :
    ∃ ms g, List.Forall₂ ActionMatches as ms ∧
      Machine.run Generations.step none ms = .ok (some g) ∧ db.Keeps g := by
  obtain ⟨ms, t, hms, ht, -, hnone, hkeeps⟩ :=
    Machine.run_simulates (fun _ _ _ _ h ha hstep => keeps_step h ha hstep) remembers_start hall
      hrun
  cases t with
  | none => cases hdb.symm.trans (hnone.2 rfl)
  | some g => exact ⟨ms, g, hms, ht, hkeeps db g hdb rfl⟩

/-- **The database is a store of two generations.**  Every run of sessions that keeps the tables
readable is a run of the store, action by action, and `Get` answers with the value stored for the
last operation on the key that the store remembers. -/
theorem get_refines_generations {as : List Action} {w : World} {db : DBimpl}
    (hall : Machine.Along World.step KeepsTables World.start as)
    (hrun : Machine.run World.step World.start as = .ok w) (hdb : w.db = some db) :
    ∃ ms g, List.Forall₂ ActionMatches as ms ∧
      Machine.run Generations.step none ms = .ok (some g) ∧
      ∀ k, KeyFits k [] →
        db.get w.disk.sstable k = .ok ((lastCutTo k g.remembered).map WriteOp.stored) := by
  obtain ⟨ms, g, hms, hg, hkeeps⟩ := keeps_of_run hall hrun hdb
  have hserving := serving_of_run hall hrun hdb
  exact ⟨ms, g, hms, hg, fun k hk => hkeeps.get_eq hserving hk⟩

/-- The second write makes the first one the old generation. -/
theorem run_twoWrites : ∃ w db, Machine.run World.step World.start twoWrites = .ok w ∧
    w.db = some db ∧ db.immutableMemtable.isSome = true := by
  have hrun : (Machine.run World.step World.start twoWrites).map
      (fun w => w.db.map fun db => db.immutableMemtable.isSome) = .ok (some true) := by
    decide +kernel
  obtain ⟨w, hw, hdata⟩ := Exec.exists_of_map hrun
  obtain ⟨db, hdb, himm⟩ := Option.map_eq_some_iff.1 hdata
  exact ⟨w, db, hw, hdb, himm⟩

theorem along_twoWrites : Machine.Along World.step KeepsTables World.start twoWrites := by
  refine along_oneWrite_append trivial ?_ ?_
  · intro w db hdb hlast
    exact ⟨by decide, World.lastSequence_lt hdb hlast (by decide)⟩
  · intro w db hdb hlast
    exact ⟨⟨by decide, World.lastSequence_lt hdb hlast (by decide)⟩, fun _ _ => trivial⟩

theorem get_refines_generations_twoWrites : ∃ w db ms g,
    Machine.run World.step World.start twoWrites = .ok w ∧ w.db = some db ∧
    List.Forall₂ ActionMatches twoWrites ms ∧
    Machine.run Generations.step none ms = .ok (some g) ∧
    ∀ k, KeyFits k [] →
      db.get w.disk.sstable k = .ok ((lastCutTo k g.remembered).map WriteOp.stored) := by
  obtain ⟨w, db, hw, hdb, -⟩ := run_twoWrites
  obtain ⟨ms, g, hms, hg, hget⟩ := get_refines_generations along_twoWrites hw hdb
  exact ⟨w, db, ms, g, hw, hdb, hms, hg, hget⟩

/-! ### What is forgotten -/

/-- What has been written since the database was opened, after one more action. -/
def writtenSince (ops : List WriteOp) : Action → List WriteOp
  | .create _ => []
  | .write ops' _ _ => ops ++ ops'
  | .backGroundCall _ => ops
  | .destroy _ _ => ops

theorem ActionMatches.told {a : Action} {m : GenAction WriteOp} (h : ActionMatches a m)
    (ops : List WriteOp) : Generations.told ops m = writtenSince ops a := by
  cases h <;> rfl

theorem session_eq {as : List Action} {ms : List (GenAction WriteOp)}
    (h : List.Forall₂ ActionMatches as ms) :
    Generations.session ms = as.foldl writtenSince [] := by
  suffices hfold : ∀ ops, ms.foldl Generations.told ops = as.foldl writtenSince ops from hfold []
  induction h with
  | nil => exact fun _ => rfl
  | cons ha _ ih =>
    intro ops
    rw [List.foldl_cons, List.foldl_cons, ha.told]
    exact ih _

/-- The action is a compaction. -/
def Action.compacts : Action → Bool
  | .backGroundCall _ => true
  | _ => false

theorem flush_not_mem {as : List Action} {ms : List (GenAction WriteOp)}
    (h : List.Forall₂ ActionMatches as ms) (has : ∀ a ∈ as, a.compacts = false) : .flush ∉ ms := by
  induction h with
  | nil => exact List.not_mem_nil
  | cons ha _ ih =>
    obtain ⟨hcomp, has⟩ := List.forall_mem_cons.1 has
    intro hmem
    rcases List.mem_cons.1 hmem with rfl | hmem
    · cases ha
      cases hcomp
    · exact ih has hmem

/-- **Every answer is for a suffix of the session.**  What was written since the database was opened
is what has been forgotten followed by what `Get` answers from, for all keys at once; without a
compaction nothing has been forgotten.  Nothing that was written before the database was opened is
ever found. -/
theorem get_answers_from_session {as : List Action} {w : World} {db : DBimpl}
    (hall : Machine.Along World.step KeepsTables World.start as)
    (hrun : Machine.run World.step World.start as = .ok w) (hdb : w.db = some db) :
    ∃ forgotten remembered, as.foldl writtenSince [] = forgotten ++ remembered ∧
      ((∀ a ∈ as, a.compacts = false) → forgotten = []) ∧
      ∀ k, KeyFits k [] →
        db.get w.disk.sstable k = .ok ((lastCutTo k remembered).map WriteOp.stored) := by
  obtain ⟨ms, g, hms, hg, hkeeps⟩ := keeps_of_run hall hrun hdb
  have hserving := serving_of_run hall hrun hdb
  have hsession := Generations.forgotten_append_remembered hg
  rw [session_eq hms] at hsession
  refine ⟨g.forgotten, g.remembered, hsession.symm, ?_, fun k hk => hkeeps.get_eq hserving hk⟩
  intro has
  have hkept := Generations.remembered_of_no_flush hg (flush_not_mem hms has)
  rw [session_eq hms, ← hsession] at hkept
  exact List.self_eq_append_left.1 hkept

theorem get_answers_from_session_twoWrites : ∃ w db forgotten remembered,
    Machine.run World.step World.start twoWrites = .ok w ∧ w.db = some db ∧
    twoWrites.foldl writtenSince [] = forgotten ++ remembered ∧
    ((∀ a ∈ twoWrites, a.compacts = false) → forgotten = []) ∧
    ∀ k, KeyFits k [] →
      db.get w.disk.sstable k = .ok ((lastCutTo k remembered).map WriteOp.stored) := by
  obtain ⟨w, db, hw, hdb, -⟩ := run_twoWrites
  obtain ⟨forgotten, remembered, hsplit, hnone, hget⟩ :=
    get_answers_from_session along_twoWrites hw hdb
  exact ⟨w, db, forgotten, remembered, hw, hdb, hsplit, hnone, hget⟩

end KoishiDB
