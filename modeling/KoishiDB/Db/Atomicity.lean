import KoishiDB.Db.Locks
import KoishiDB.Db.Manifest

/-!
# Critical sections are atomic

The other modules of the database treat `Write` and `BackGroundCall` as one step each.  Here the
threads of `KoishiDB.Db.Locks`, which interleave point by point, are shown to do nothing else: a
thread that is inside has done a part of the call it is in, starting from a database that whole
calls have produced, and when `rwlock_` is free the database is such a one itself.

* `serial_of_run` : the simulation.
* `run_sections_of_free` : what the threads do is what some sequence of whole calls does.
* `nobody_waits_for_turn` : no writer ever waits for its turn; when a thread gets `rwlock_`, the
  queue is empty.
-/

namespace KoishiDB

/-- A call that holds `rwlock_` from its start to its end. -/
inductive Section where
  | write (update : WriteBatch) (size₀ : ℕ) (heights : Heights)
  | backGroundCall (env : BuildEnv)

namespace DBimpl

/-- The calls as single steps. -/
def perform (db : DBimpl) : Section → Exec DBimpl
  | .write update size₀ heights => do
    let (db, _) ← db.write size₀ heights update
    return db
  | .backGroundCall env => do
    if db.tasks = 0 then throw .blocked
    let (db, _) ← db.backGroundCall env
    return db

/-- The database with one writer in the queue. -/
def withWriter (db : DBimpl) (update : WriteBatch) : DBimpl :=
  { db with writers := [⟨update, false⟩] }

variable {db db' : DBimpl}

/-- A compaction does not touch the queue and the threads. -/
theorem backGroundCompaction_frame {env : BuildEnv} {r : Option BuildResult}
    (h : db.backGroundCompaction env = .ok (db', r)) :
    db'.writers = db.writers ∧ db'.tasks = db.tasks := by
  rcases backGroundCompaction_changes h with ⟨-, -, rfl⟩ | ⟨-, _, _, _, -, rfl⟩
  · exact ⟨rfl, rfl⟩
  · exact ⟨rfl, rfl⟩

theorem commit_tasks {heights : Heights} {k : Commit} (h : db.commit heights = .ok k) :
    k.db.tasks = db.tasks := by
  obtain ⟨_, _, _, hk⟩ := commit_frame h
  rw [hk]

/-- A group of one writer empties the queue. -/
theorem commit_single {heights : Heights} {w : Writer} {k : Commit} (hw : db.writers = [w])
    (h : db.commit heights = .ok k) : k.popped.length = 1 ∧ k.db.writers = [] := by
  simp only [commit, hw, buildWriteBatchGroup, groupLoop, Exec.ok_bind, Exec.pure_eq] at h
  obtain ⟨⟨m, es⟩, -, h⟩ := Exec.bind_eq_ok.1 h
  cases h
  exact ⟨rfl, rfl⟩

/-- `Write` in one step. -/
theorem perform_write {update : WriteBatch} {size₀ : ℕ} {heights : Heights} {k : Commit}
    (hw : db.writers = []) (hroom : (db.withWriter update).makeRoomForWrite size₀ = .ok db')
    (hcommit : db'.commit heights = .ok k) :
    db.perform (.write update size₀ heights) = .ok k.db := by
  have hroom' : { db with writers := [Writer.mk update false] }.makeRoomForWrite size₀ = .ok db' :=
    hroom
  simp only [perform, write, hw, ne_eq, not_true_eq_false, ↓reduceIte, List.nil_append,
    Exec.pure_eq, Exec.ok_bind, hroom', hcommit]

/-- `BackGroundCall` in one step. -/
theorem perform_backGroundCall {env : BuildEnv} {r : Option BuildResult} (htasks : db.tasks ≠ 0)
    (hcomp : db.backGroundCompaction env = .ok (db', r)) :
    db.perform (.backGroundCall env) =
      .ok { db' with backgroundCompactionSchedule := false, tasks := db'.tasks - 1 } := by
  simp only [perform, htasks, ↓reduceIte, backGroundCall, hcomp, Exec.ok_bind, Exec.pure_eq]

end DBimpl

namespace Threads

/-! ### The threads that have been started -/

/-- `tasks` counts the threads in `BackGroundCall`. -/
def Counted (s : Threads) : Prop := s.db.tasks = s.points.countP Point.canSignal

variable {s s' : Threads} {e : Event}

theorem Counted.goto {t : ℕ} {p q : Point} (h : s.Counted) (ht : s.points[t]? = some p)
    (hpq : q.canSignal = p.canSignal) : (s.goto t q).Counted := by
  unfold Counted
  rw [show (s.goto t q).points.countP _ = s.points.countP _ from
    countP_eq_of_map_eq (map_set_of_eq ht hpq)]
  exact h

theorem Counted.step (h : s.Counted) (hstep : Step s e s') : s'.Counted := by
  cases hstep with
  | call _ => simpa [Counted, Point.canSignal] using h
  | wakeTurn ht => exact h.goto ht rfl
  | wakeFinish ht => exact h.goto ht rfl
  | write ht _ =>
    unfold Threads.push
    dsimp only
    split_ifs
    · exact Counted.goto (by exact h) ht rfl
    · exact Counted.goto (by exact h) ht rfl
  | relockTurn ht => exact h.goto ht rfl
  | done ht => exact h.goto ht rfl
  | turn ht => exact h.goto ht rfl
  | room ht _ => exact h.goto ht rfl
  | wait ht _ _ => exact h.goto ht rfl
  | rotate _ _ _ =>
    unfold Counted at h ⊢
    rw [List.countP_append, ← h, List.countP_replicate, DBimpl.rotate_tasks]
    simp [Point.canSignal]
  | relockFinish ht => exact h.goto ht rfl
  | @commit t _ k ht _ hcommit =>
    refine (DBimpl.commit_tasks hcommit).trans (h.trans (countP_eq_of_map_eq ?_).symm)
    -- the writer itself and those it wakes up are no compaction threads
    simp only [finish, Threads.goto]
    rw [List.map_set, map_notifyWriters Point.canSignal_notifyTurn, ← List.map_set]
    exact map_set_of_eq ht rfl
  | backGroundCall ht _ => exact h.goto ht rfl
  | compact ht hcomp =>
    exact (DBimpl.backGroundCompaction_frame hcomp).2.trans (h.goto ht rfl)
  | @notify t _ ht =>
    have ht' : (s.points.map Point.notifyFinish)[t]? = some .notify := by
      rw [List.getElem?_map, ht]
      rfl
    have hall : (s.points.map Point.notifyFinish).countP Point.canSignal = s.db.tasks := by
      rw [h]
      exact countP_eq_of_map_eq (by simp [Function.comp_def])
    have hcount := countP_set_add (f := Point.canSignal) ht' .returned
    simp only [hall, Point.canSignal, Bool.toNat_true, Bool.toNat_false] at hcount
    simp only [Counted, finish, Threads.goto]
    omega

/-! ### The simulation -/

/-- `MakeRoomForWrite` has done no round or one round of its loop. -/
def Rounds (d db : DBimpl) : Prop :=
  ∃ update, db = d.withWriter update ∨
    ∃ size₀, kMaxMemtableSize ≤ d.memtable.size ∧ d.immutableMemtable = none ∧
      db = (d.withWriter update).rotate size₀

/-- What thread `t` has done of its call, which started with the database `d`. -/
def Within (d : DBimpl) (t : ℕ) (s : Threads) : Point → Prop
  | .turn done => done = false ∧ s.queue = [t] ∧ ∃ update, s.db = d.withWriter update
  | .makeRoom | .waitFinish | .wakeFinish => s.queue = [t] ∧ Rounds d s.db
  | .commit => s.queue = [t] ∧
      ∃ update size₀, (d.withWriter update).makeRoomForWrite size₀ = .ok s.db
  | .compact => s.queue = [] ∧ s.db = d
  | .notify => s.queue = [] ∧ ∃ env r, d.backGroundCompaction env = .ok (s.db, r)
  | .write _ | .waitTurn | .wakeTurn _ | .backGroundCall | .returned => False

/-- Between calls the database is `d`, and inside one it is on its way from there. -/
def At (s : Threads) (d : DBimpl) : Prop :=
  match s.rwlock with
  | none => s.db = d ∧ s.queue = []
  | some t => ∃ p, s.points[t]? = some p ∧ Within d t s p

theorem At.free {d : DBimpl} (h : s.At d) (hfree : s.rwlock = none) : s.db = d ∧ s.queue = [] := by
  unfold At at h
  rwa [hfree] at h

theorem At.within {d : DBimpl} {t : ℕ} {p : Point} (h : s.At d) (hexcl : s.Excl)
    (ht : s.points[t]? = some p) (hp : p.holds = true) : Within d t s p := by
  unfold At at h
  rw [hexcl.lock_eq ht hp] at h
  obtain ⟨q, hq, hw⟩ := h
  cases ht.symm.trans hq
  exact hw

theorem at_of_free {d : DBimpl} (hlock : s.rwlock = none) (hdb : s.db = d) (hq : s.queue = []) :
    s.At d := by
  unfold At
  rw [hlock]
  exact ⟨hdb, hq⟩

theorem at_of_within {d : DBimpl} {t : ℕ} {p : Point} (hlock : s.rwlock = some t)
    (ht : s.points[t]? = some p) (hw : Within d t s p) : s.At d := by
  unfold At
  rw [hlock]
  exact ⟨p, ht, hw⟩

/-- The call of a thread that moves on inside. -/
theorem at_of_goto {d : DBimpl} {t : ℕ} {p q : Point} (hexcl : s.Excl)
    (ht : s.points[t]? = some p) (hp : p.holds = true) (hlock : s'.rwlock = s.rwlock)
    (hpoints : s'.points = s.points.set t q) (hw : Within d t s' q) : s'.At d := by
  refine at_of_within (hlock.trans (hexcl.lock_eq ht hp)) ?_ hw
  rw [hpoints, List.getElem?_set_self (List.getElem?_eq_some_iff.1 ht).1]

/-- Threads behind the others do not matter. -/
theorem At.append {d : DBimpl} {new : List Point} (h : s.At d) :
    { s with points := s.points ++ new }.At d := by
  unfold At at h ⊢
  dsimp only
  split
  · rename_i hfree
    rwa [hfree] at h
  · rename_i t hlock
    rw [hlock] at h
    obtain ⟨p, hp, hw⟩ := h
    refine ⟨p, ?_, ?_⟩
    · rw [List.getElem?_append_left (List.getElem?_eq_some_iff.1 hp).1]
      exact hp
    · cases p <;> exact hw

/-- The database is on its way from one that whole calls have produced. -/
structure Serial (db₀ : DBimpl) (s : Threads) : Prop where
  excl : s.Excl
  counted : s.Counted
  started : ∃ d, Machine.Reachable DBimpl.perform db₀ d ∧ d.writers = [] ∧ s.At d

theorem Rounds.room {d db : DBimpl} (h : Rounds d db)
    (hroom : db.memtable.estimatedSize < kMaxMemtableSize) :
    ∃ update size₀, (d.withWriter update).makeRoomForWrite size₀ = .ok db := by
  obtain ⟨update, rfl | ⟨size₀, hfull, himm, rfl⟩⟩ := h
  · exact ⟨update, 0, DBimpl.makeRoomForWrite_eq_ok.2 (.inl ⟨hroom, rfl⟩)⟩
  · refine ⟨update, size₀, DBimpl.makeRoomForWrite_eq_ok.2 (.inr ⟨hfull, himm, ?_, rfl⟩)⟩
    rwa [DBimpl.rotate_memtable] at hroom

theorem Rounds.rotate {d db : DBimpl} {size₀ : ℕ} (h : Rounds d db)
    (hfull : kMaxMemtableSize ≤ db.memtable.estimatedSize) (himm : db.immutableMemtable = none) :
    Rounds d (db.rotate size₀) := by
  obtain ⟨update, rfl | ⟨_, _, _, rfl⟩⟩ := h
  · exact ⟨update, .inr ⟨size₀, hfull, himm, rfl⟩⟩
  · rw [DBimpl.rotate_immutableMemtable] at himm
    cases himm

/-- A thread that gets the lock starts its call with an empty queue. -/
theorem At.push {d : DBimpl} {t : ℕ} {update : WriteBatch} (h : s.At d) (hw : d.writers = [])
    (ht : s.points[t]? = some (.write update)) (hfree : s.rwlock = none) :
    ({ s with rwlock := some t }.push t update).At d := by
  obtain ⟨hdb, hq⟩ := h.free hfree
  have hfront : (s.queue ++ [t]).head? = some t := by rw [hq]; rfl
  simp only [Threads.push, hfront, ↓reduceIte]
  refine at_of_within rfl (List.getElem?_set_self (List.getElem?_eq_some_iff.1 ht).1) ?_
  refine ⟨rfl, by simp [Threads.goto, hq], update, ?_⟩
  simp [Threads.goto, hdb, hw, DBimpl.withWriter]

/-- The last part of `Write` completes the call. -/
theorem At.commit {db₀ d : DBimpl} {t : ℕ} {heights : Heights} {k : DBimpl.Commit} (h : s.At d)
    (hexcl : s.Excl) (hd : Machine.Reachable DBimpl.perform db₀ d) (hw : d.writers = [])
    (ht : s.points[t]? = some .commit) (hcommit : s.db.commit heights = .ok k) :
    Machine.Reachable DBimpl.perform db₀ k.db ∧ k.db.writers = [] ∧
      s.queue.drop k.popped.length = [] := by
  obtain ⟨hq, update, size₀, hroom⟩ := h.within hexcl ht rfl
  have hroom' : { d with writers := [Writer.mk update false] }.makeRoomForWrite size₀ = .ok s.db :=
    hroom
  obtain ⟨hws, -⟩ := DBimpl.makeRoomForWrite_writers hroom'
  obtain ⟨hlen, hempty⟩ := DBimpl.commit_single hws hcommit
  obtain ⟨as, has⟩ := hd
  refine ⟨⟨as ++ [.write update size₀ heights], ?_⟩, hempty, by rw [hq, hlen]; rfl⟩
  exact Machine.run_append_ok.2 ⟨d, has,
    Machine.run_cons_ok.2 ⟨_, DBimpl.perform_write hw hroom hcommit, rfl⟩⟩

/-- The last part of `BackGroundCall` completes the call. -/
theorem At.notify {db₀ d : DBimpl} {t : ℕ} (h : s.At d) (hexcl : s.Excl) (hcounted : s.Counted)
    (hd : Machine.Reachable DBimpl.perform db₀ d) (hw : d.writers = [])
    (ht : s.points[t]? = some .notify) :
    Machine.Reachable DBimpl.perform db₀
        { s.db with backgroundCompactionSchedule := false, tasks := s.db.tasks - 1 } ∧
      s.db.writers = [] ∧ s.queue = [] := by
  obtain ⟨hq, env, r, hcomp⟩ := h.within hexcl ht rfl
  obtain ⟨hws, htasks⟩ := DBimpl.backGroundCompaction_frame hcomp
  have hpos : 0 < s.points.countP Point.canSignal :=
    List.countP_pos_iff.2 ⟨_, List.mem_of_getElem? ht, rfl⟩
  have hne : d.tasks ≠ 0 := by
    rw [← htasks, hcounted]
    exact hpos.ne'
  obtain ⟨as, has⟩ := hd
  refine ⟨⟨as ++ [.backGroundCall env], ?_⟩, hws.trans hw, hq⟩
  exact Machine.run_append_ok.2 ⟨d, has,
    Machine.run_cons_ok.2 ⟨_, DBimpl.perform_backGroundCall hne hcomp, rfl⟩⟩

/-- **One step of a thread** is a part of a call. -/
theorem Serial.step {db₀ : DBimpl} (h : Serial db₀ s) (hstep : Step s e s') : Serial db₀ s' := by
  refine ⟨h.excl.step hstep, h.counted.step hstep, ?_⟩
  obtain ⟨d, hd, hw, hat⟩ := h.started
  cases hstep with
  | call _ => exact ⟨d, hd, hw, hat.append⟩
  -- nobody waits for its turn, so the steps of such a wait do not happen
  | wakeTurn ht => exact (hat.within h.excl ht rfl).elim
  | wakeFinish ht => exact ⟨d, hd, hw, at_of_goto h.excl ht rfl rfl rfl (hat.within h.excl ht rfl)⟩
  | write ht hfree => exact ⟨d, hd, hw, hat.push hw ht hfree⟩
  | relockTurn ht => exact (hat.within h.excl ht rfl).elim
  | done ht => exact absurd (hat.within h.excl ht rfl).1 (by simp)
  | turn ht =>
    obtain ⟨-, hq, update, hdb⟩ := hat.within h.excl ht rfl
    exact ⟨d, hd, hw, at_of_goto h.excl ht rfl rfl rfl ⟨hq, update, .inl hdb⟩⟩
  | room ht hroom =>
    obtain ⟨hq, hrounds⟩ := hat.within h.excl ht rfl
    exact ⟨d, hd, hw, at_of_goto h.excl ht rfl rfl rfl ⟨hq, hrounds.room hroom⟩⟩
  | wait ht _ _ => exact ⟨d, hd, hw, at_of_goto h.excl ht rfl rfl rfl (hat.within h.excl ht rfl)⟩
  | rotate ht hfull himm =>
    obtain ⟨hq, hrounds⟩ := hat.within h.excl ht rfl
    refine ⟨d, hd, hw, at_of_within (p := .makeRoom) (h.excl.lock_eq ht rfl) ?_
      ⟨hq, hrounds.rotate hfull himm⟩⟩
    rw [List.getElem?_append_left (List.getElem?_eq_some_iff.1 ht).1]
    exact ht
  | relockFinish ht =>
    exact ⟨d, hd, hw, at_of_goto h.excl ht rfl rfl rfl (hat.within h.excl ht rfl)⟩
  -- the lock is released: the operation is complete, and the sequential database performs it
  | commit ht _ hcommit =>
    obtain ⟨hd', hw', hq⟩ := hat.commit h.excl hd hw ht hcommit
    exact ⟨_, hd', hw', at_of_free rfl rfl hq⟩
  | @backGroundCall t _ ht hfree =>
    obtain ⟨hdb, hq⟩ := hat.free hfree
    refine ⟨d, hd, hw, at_of_within (p := .compact) rfl ?_ ⟨hq, hdb⟩⟩
    exact List.getElem?_set_self (List.getElem?_eq_some_iff.1 ht).1
  | @compact _ c _ r ht hcomp =>
    obtain ⟨hq, rfl⟩ := hat.within h.excl ht rfl
    exact ⟨_, hd, hw, at_of_goto h.excl ht rfl rfl rfl ⟨hq, c.env, r, hcomp⟩⟩
  | notify ht =>
    obtain ⟨hd', hw', hq⟩ := hat.notify h.excl h.counted hd hw ht
    exact ⟨_, hd', hw', at_of_free rfl rfl hq⟩

/-- **The simulation**, in every run from a new database. -/
theorem serial_of_run {u : Uninit} {manifest : Option Bytes} {db : DBimpl} {es : List Event}
    (hmake : DBimpl.make u manifest = .ok db) (h : Machine.run step (start db) es = .ok s) :
    Serial db s := by
  obtain ⟨hw, -, -, htasks⟩ := DBimpl.make_frame hmake
  refine Machine.Reachable.invariant (I := Serial db)
    (fun _ _ _ hs hstep => hs.step (.of_step hstep)) ⟨excl_start db, htasks, ?_⟩ ⟨es, h⟩
  exact ⟨db, ⟨[], rfl⟩, hw, at_of_free rfl rfl rfl⟩

/-- **Critical sections are atomic.**  When no thread holds `rwlock_`, the database is what some
sequence of whole calls makes of the new one. -/
theorem run_sections_of_free {u : Uninit} {manifest : Option Bytes} {db : DBimpl}
    {es : List Event} (hmake : DBimpl.make u manifest = .ok db)
    (h : Machine.run step (start db) es = .ok s) (hfree : s.rwlock = none) :
    ∃ calls, Machine.run DBimpl.perform db calls = .ok s.db := by
  obtain ⟨d, ⟨calls, hcalls⟩, -, hat⟩ := (serial_of_run hmake h).started
  obtain ⟨rfl, -⟩ := hat.free hfree
  exact ⟨calls, hcalls⟩

/-- **No writer ever waits for its turn**, since the writer in front of it would have to let go of
`rwlock_` before it is done. -/
theorem nobody_waits_for_turn {u : Uninit} {manifest : Option Bytes} {db : DBimpl}
    {es : List Event} (hmake : DBimpl.make u manifest = .ok db)
    (h : Machine.run step (start db) es = .ok s) : .waitTurn ∉ s.points := by
  intro hmem
  obtain ⟨t, ht⟩ := List.mem_iff_getElem?.1 hmem
  have hserial := serial_of_run hmake h
  obtain ⟨d, -, -, hat⟩ := hserial.started
  exact hat.within hserial.excl ht rfl

end Threads

end KoishiDB
