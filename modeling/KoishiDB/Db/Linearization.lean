import KoishiDB.Db.Forgetful
import KoishiDB.Db.History

/-!
# What concurrent clients see

The log of `KoishiDB.Db.History` is where the two views of the database meet.  On the one side it is
a session of whole actions (`KoishiDB.Db.Session`), and so a run of the store of two generations
(`KoishiDB.Db.Forgetful`).  On the other side it is what clients can tell from the order in which
their calls return.

* `matches_step` : a step of a thread is nothing, or one action of a session.
* `log_linearizes` : every call is in the log once when it has returned, and the store executes the
  log.
* `gets_linearize` : every `Get` answers from what the store remembers after a part of the log, at a
  moment between its call and its return.
-/

namespace KoishiDB

namespace History

variable {h h' : History} {e : Event}

/-! ### Threads and sessions -/

/-- Between the actions of a session the threads have done them and nothing else; inside one, the
database is on its way from `d`, and a table has been written as soon as a compaction thread is
behind `BackGroundCompaction`. -/
structure Matches (h : History) (w : World) (d : DBimpl) : Prop where
  running : w.db = some d
  writers : d.writers = []
  started : h.threads.At d
  files : .notify ∉ h.threads.points → h.inner.files = w.disk.sstable
  written : .notify ∈ h.threads.points → ∃ env r, env.Succeeds ∧ NextFree w ∧
    d.backGroundCompaction env = .ok (h.threads.db, r) ∧
    h.inner.files = (r.elim w (w.record d.sstableNumber)).disk.sstable

/-- What a thread was called with, and the action that it was. -/
inductive Did : ℕ × Option (List WriteOp) → Action → Prop
  | write (t : ℕ) (ops : List WriteOp) (size₀ : ℕ) (heights : Heights) :
      Did (t, some ops) (.write ops size₀ heights)
  | backGroundCall (t : ℕ) (env : BuildEnv) : Did (t, none) (.backGroundCall env)

/-- The operations are small, there are sequence numbers left for what a writer writes, and
compactions succeed and write into files that no listed table uses. -/
def Proper (h : History) : Event → Prop
  | .call ops => ∀ op ∈ ops, op.Small
  | .wake _ => True
  | .run t c =>
    (h.threads.points[t]? = some .compact → c.env.Succeeds ∧
      h.threads.db.sstableNumber ∉ h.threads.db.fileMetas.map FileMeta.number) ∧
    (h.threads.points[t]? = some .commit → ∀ ops, h.calls[t]? = some (some ops) →
      h.threads.db.lastSequence + ops.length < storedSeq UINT64_MAX)

/-- While another thread is inside, nobody is behind a compaction. -/
theorem notify_not_mem {s : Threads} {t : ℕ} {p : Point} (hexcl : s.Excl)
    (ht : s.points[t]? = some p) (hp : p.holds = true) (hne : p ≠ .notify) :
    .notify ∉ s.points := by
  intro hmem
  obtain ⟨u, hu⟩ := List.mem_iff_getElem?.1 hmem
  have heq := (hexcl.lock_eq ht hp).symm.trans (hexcl.lock_eq hu rfl)
  cases heq
  exact hne (Option.some.inj (ht.symm.trans hu))

theorem notify_not_mem_of_free {s : Threads} (hexcl : s.Excl) (hfree : s.rwlock = none) :
    .notify ∉ s.points := by
  intro hmem
  obtain ⟨u, hu⟩ := List.mem_iff_getElem?.1 hmem
  cases hfree.symm.trans (hexcl.lock_eq hu rfl)

/-- Only a compaction thread touches the files. -/
theorem filesAfter_of_not_compact {s : DbThreads}
    (he : ∀ t c, e = .run t c → s.threads.points[t]? ≠ some .compact) :
    s.filesAfter e = s.files := by
  unfold DbThreads.filesAfter
  split
  · split
    · rename_i ht _
      exact absurd ht (he _ _ rfl)
    · rfl
  · rfl

/-- A compaction thread does to the files what the action does. -/
theorem filesAfter_of_compact {s : DbThreads} {w : World} {t : ℕ} {c : Choice} {db : DBimpl}
    {r : Option BuildResult} (ht : s.threads.points[t]? = some .compact)
    (hcomp : s.threads.db.backGroundCompaction c.env = .ok (db, r))
    (hfiles : s.files = w.disk.sstable) :
    s.filesAfter (.run t c) = (r.elim w (w.record s.threads.db.sstableNumber)).disk.sstable := by
  simp only [DbThreads.filesAfter, ht, hcomp]
  cases r with
  | none => exact hfiles
  | some r => simp only [hfiles, Option.elim_some, World.record]

namespace Matches

variable {w : World} {d : DBimpl} {t : ℕ} {p q : Point} {g : History}

/-- A step inside a call, or of a thread that is not in one. -/
theorem stays (hm : Matches h w d) (hat : g.threads.At d) (hno : .notify ∉ h.threads.points)
    (hno' : .notify ∉ g.threads.points) (hfiles : g.inner.files = h.inner.files) :
    Matches g w d :=
  ⟨hm.running, hm.writers, hat, fun _ => hfiles.trans (hm.files hno), fun hmem => absurd hmem hno'⟩

/-- The thread that is inside moves. -/
theorem goto (hm : Matches h w d) (hexcl : h.threads.Excl) (ht : h.threads.points[t]? = some p)
    (hp : p.holds = true) (hne : p ≠ .notify) (hlock : g.threads.rwlock = h.threads.rwlock)
    (hpoints : g.threads.points = h.threads.points.set t q)
    (hfiles : g.inner.files = h.inner.files) (hq : q ≠ .notify)
    (hw : Threads.Within d t g.threads q) : Matches g w d := by
  have hno := notify_not_mem hexcl ht hp hne
  refine hm.stays (Threads.at_of_goto hexcl ht hp hlock hpoints hw) hno ?_ hfiles
  rw [hpoints]
  intro hmem
  rcases List.mem_or_eq_of_mem_set hmem with hmem | heq
  · exact hno hmem
  · exact hq heq.symm

/-- A writer gets the lock. -/
theorem push (hm : Matches h w d) (hexcl : h.threads.Excl) {update : WriteBatch}
    (ht : h.threads.points[t]? = some (.write update)) (hfree : h.threads.rwlock = none)
    (hthreads : g.threads = { h.threads with rwlock := some t }.push t update)
    (hfiles : g.inner.files = h.inner.files) : Matches g w d := by
  have hno := notify_not_mem_of_free hexcl hfree
  refine hm.stays ?_ hno ?_ hfiles
  · rw [hthreads]
    exact hm.started.push hm.writers ht hfree
  · rw [hthreads]
    unfold Threads.push
    dsimp only
    split_ifs
    · exact fun hmem => hno (by simpa [Threads.goto] using List.mem_or_eq_of_mem_set hmem)
    · exact fun hmem => hno (by simpa [Threads.await] using List.mem_or_eq_of_mem_set hmem)

/-- A writer rotates the memtables. -/
theorem rotate (hm : Matches h w d) (hexcl : h.threads.Excl)
    (ht : h.threads.points[t]? = some .makeRoom)
    (hfull : kMaxMemtableSize ≤ h.threads.db.memtable.estimatedSize)
    (himm : h.threads.db.immutableMemtable = none) {size₀ n : ℕ}
    (hthreads : g.threads = { h.threads with
      db := h.threads.db.rotate size₀
      points := h.threads.points ++ List.replicate n .backGroundCall })
    (hfiles : g.inner.files = h.inner.files) : Matches g w d := by
  obtain ⟨hq, hrounds⟩ := hm.started.within hexcl ht rfl
  have hno := notify_not_mem hexcl ht rfl (by simp)
  refine hm.stays ?_ hno ?_ hfiles
  · rw [hthreads]
    refine Threads.at_of_within (p := .makeRoom) (hexcl.lock_eq ht rfl) ?_
      ⟨hq, hrounds.rotate hfull himm⟩
    rw [List.getElem?_append_left (List.getElem?_eq_some_iff.1 ht).1]
    exact ht
  · rw [hthreads, List.mem_append, not_or]
    exact ⟨hno, fun hmem => by cases List.eq_of_mem_replicate hmem⟩

/-- A compaction thread gets the lock. -/
theorem enter (hm : Matches h w d) (hexcl : h.threads.Excl)
    (ht : h.threads.points[t]? = some .backGroundCall) (hfree : h.threads.rwlock = none)
    (hthreads : g.threads = { h.threads with rwlock := some t }.goto t .compact)
    (hfiles : g.inner.files = h.inner.files) : Matches g w d := by
  obtain ⟨hdb, hq⟩ := hm.started.free hfree
  have hno := notify_not_mem_of_free hexcl hfree
  refine hm.stays ?_ hno ?_ hfiles
  · rw [hthreads]
    refine Threads.at_of_within (p := .compact) rfl ?_ ⟨hq, hdb⟩
    exact List.getElem?_set_self (List.getElem?_eq_some_iff.1 ht).1
  · rw [hthreads]
    exact fun hmem => hno (by simpa using List.mem_or_eq_of_mem_set hmem)

/-- A compaction thread writes the table of the action that it is going to complete. -/
theorem compact (hm : Matches h w d) (hexcl : h.threads.Excl)
    (ht : h.threads.points[t]? = some .compact) {c : Choice} {db : DBimpl} {r : Option BuildResult}
    (hcomp : h.threads.db.backGroundCompaction c.env = .ok (db, r)) (hs : c.env.Succeeds)
    (hfree : h.threads.db.sstableNumber ∉ h.threads.db.fileMetas.map FileMeta.number)
    (hthreads : g.threads = { h.threads.goto t .notify with db })
    (hfiles : g.inner.files = h.inner.filesAfter (.run t c)) : Matches g w d := by
  obtain ⟨hq, rfl⟩ := hm.started.within hexcl ht rfl
  have hold := hm.files (notify_not_mem hexcl ht rfl (by simp))
  have hnotify : g.threads.points[t]? = some .notify := by
    rw [hthreads]
    exact List.getElem?_set_self (List.getElem?_eq_some_iff.1 ht).1
  refine ⟨hm.running, hm.writers, ?_, fun hno => absurd (List.mem_of_getElem? hnotify) hno,
    fun _ => ⟨c.env, r, hs, ?_, ?_, hfiles.trans (filesAfter_of_compact ht hcomp hold)⟩⟩
  · rw [hthreads]
    exact Threads.at_of_goto hexcl ht rfl rfl rfl ⟨hq, c.env, r, hcomp⟩
  · intro d' hd'
    cases hm.running.symm.trans hd'
    exact hfree
  · rw [hthreads]
    exact hcomp

/-- The last part of `Write` completes the action. -/
theorem commit (hm : Matches h w d) (hl : Ledger h) (hexcl : h.threads.Excl)
    (ht : h.threads.points[t]? = some .commit) {heights : Heights} {k : DBimpl.Commit}
    (hcommit : h.threads.db.commit heights = .ok k)
    (hleft : ∀ ops, h.calls[t]? = some (some ops) →
      h.threads.db.lastSequence + ops.length < storedSeq UINT64_MAX) :
    ∃ ops size₀, h.calls[t]? = some (some ops) ∧ KeepsTables w (.write ops size₀ heights) ∧
      w.step (.write ops size₀ heights) =
        .ok { w with db := some k.db, commits := w.commits ++ [k.inserted] } := by
  obtain ⟨-, update, size₀, hroom⟩ := hm.started.within hexcl ht rfl
  have hroom' : { d with writers := [Writer.mk update false] }.makeRoomForWrite size₀ =
      .ok h.threads.db := hroom
  obtain ⟨hwriters, -⟩ := DBimpl.makeRoomForWrite_writers hroom'
  -- the writer in the queue is this thread
  obtain ⟨u, ops, hu, hcall, hbuild⟩ := hl.writer ⟨update, false⟩ (by rw [hwriters]; simp)
  cases hu.symm.trans (hexcl.lock_eq ht rfl)
  obtain ⟨call, hcall', hc⟩ := hl.exists_call ht
  cases hcall.symm.trans hcall'
  have hlast : h.threads.db.lastSequence = (d.withWriter update).lastSequence :=
    DBimpl.makeRoomForWrite_lastSequence hroom
  have hwrite : d.write size₀ heights update = .ok (k.db, k.inserted) := by
    simp only [DBimpl.write, hm.writers, ne_eq, not_true_eq_false, ↓reduceIte, List.nil_append,
      Exec.pure_eq, Exec.ok_bind, hroom', hcommit]
  refine ⟨ops, size₀, hcall, ⟨hc.2.1, ?_⟩, World.step_write hm.running hbuild hwrite⟩
  intro db hdb
  cases hm.running.symm.trans hdb
  exact hlast ▸ hleft ops hcall

/-- The last part of `BackGroundCall` completes the action. -/
theorem notify (hm : Matches h w d) (hcounted : h.threads.Counted)
    (ht : h.threads.points[t]? = some .notify) :
    ∃ env w', KeepsTables w (.backGroundCall env) ∧ w.step (.backGroundCall env) = .ok w' ∧
      w'.db = some { h.threads.db with
        backgroundCompactionSchedule := false
        tasks := h.threads.db.tasks - 1 } ∧
      h.inner.files = w'.disk.sstable := by
  obtain ⟨env, r, hs, hfree, hcomp, hfiles⟩ := hm.written (List.mem_of_getElem? ht)
  have hpos : 0 < h.threads.points.countP Point.canSignal :=
    List.countP_pos_iff.2 ⟨_, List.mem_of_getElem? ht, rfl⟩
  have htasks : d.tasks ≠ 0 := by
    rw [← (DBimpl.backGroundCompaction_frame hcomp).2, hcounted]
    exact hpos.ne'
  obtain ⟨d', hd'⟩ : ∃ d', d' = { h.threads.db with
      backgroundCompactionSchedule := false
      tasks := h.threads.db.tasks - 1 } := ⟨_, rfl⟩
  have hstep : w.step (.backGroundCall env) = .ok (r.elim { w with db := some d' }
      (World.record { w with db := some d' } d.sstableNumber)) := by
    simp only [World.step, World.running, hm.running, htasks, ↓reduceIte, DBimpl.backGroundCall,
      hcomp, Exec.ok_bind, Exec.pure_eq, hd']
  refine ⟨env, _, ⟨hs, hfree⟩, hstep, ?_, ?_⟩
  · rw [World.db_elim_record, hd']
  · rw [hfiles]
    cases r <;> rfl

end Matches

/-- **One step of a thread** is nothing, or one action of a session. -/
theorem matches_step {db₀ d : DBimpl} {w : World} (hl : Ledger h)
    (hserial : h.threads.Serial db₀) (hm : Matches h w d) (hproper : Proper h e)
    (hstep : h.step e = .ok h') :
    Matches h' w d ∧ h'.log = h.log ∨
    ∃ x a w' d', KeepsTables w a ∧ Did x a ∧ w.step a = .ok w' ∧ Matches h' w' d' ∧
      h'.log = h.log ++ [x] := by
  obtain ⟨hinner, heq⟩ := step_eq_ok.1 hstep
  obtain ⟨hthreads, hfiles⟩ := DbThreads.threads_step hinner
  have hexcl' := hserial.excl.step (.of_step hthreads)
  have hexcl := hserial.excl
  have hself : Machine.Reachable DBimpl.perform d d := ⟨[], rfl⟩
  have hlog : h'.log = h.logAfter e := by rw [heq]
  have hquiet : (∀ t c, e = .run t c →
      h.threads.points[t]? ≠ some .commit ∧ h.threads.points[t]? ≠ some .notify) →
      h'.log = h.log := fun he => hlog.trans (logAfter_of_not_last he)
  have hkept : (∀ t c, e = .run t c → h.threads.points[t]? ≠ some .compact) →
      h'.inner.files = h.inner.files := fun he => hfiles.trans (filesAfter_of_not_compact he)
  obtain ⟨⟨s', files'⟩, calls', log'⟩ := h'
  dsimp only [threads] at hthreads hfiles hexcl' hkept hlog
  cases Threads.Step.of_step hthreads with
  | call _ =>
    have hmem : .notify ∈ h.threads.points ++ [Point.write ‹_›] ↔ .notify ∈ h.threads.points := by
      simp
    refine .inl ⟨⟨hm.running, hm.writers, hm.started.append, ?_, ?_⟩, hquiet (by simp)⟩
    · intro hno
      exact (hkept (by simp)).trans (hm.files fun h => hno (hmem.2 h))
    · intro h
      rw [hkept (by simp)]
      exact hm.written (hmem.1 h)
  | wakeTurn ht => exact (hm.started.within hexcl ht rfl).elim
  | wakeFinish ht =>
    exact .inl ⟨hm.goto hexcl ht rfl (by simp) rfl rfl (hkept (by simp)) (by simp)
      (hm.started.within hexcl ht rfl), hquiet (by simp)⟩
  | write ht hfree =>
    exact .inl ⟨hm.push hexcl ht hfree rfl (hkept (by simp [ht])), hquiet (by simp [ht])⟩
  | relockTurn ht => exact (hm.started.within hexcl ht rfl).elim
  | done ht => exact absurd (hm.started.within hexcl ht rfl).1 (by simp)
  | turn ht =>
    obtain ⟨-, hq, update, hdb⟩ := hm.started.within hexcl ht rfl
    exact .inl ⟨hm.goto hexcl ht rfl (by simp) rfl rfl (hkept (by simp [ht])) (by simp)
      ⟨hq, update, .inl hdb⟩, hquiet (by simp [ht])⟩
  | room ht hroom =>
    obtain ⟨hq, hrounds⟩ := hm.started.within hexcl ht rfl
    exact .inl ⟨hm.goto hexcl ht rfl (by simp) rfl rfl (hkept (by simp [ht])) (by simp)
      ⟨hq, hrounds.room hroom⟩, hquiet (by simp [ht])⟩
  | wait ht _ _ =>
    exact .inl ⟨hm.goto hexcl ht rfl (by simp) rfl rfl (hkept (by simp [ht])) (by simp)
      (hm.started.within hexcl ht rfl), hquiet (by simp [ht])⟩
  | rotate ht hfull himm =>
    exact .inl ⟨hm.rotate hexcl ht hfull himm rfl (hkept (by simp [ht])), hquiet (by simp [ht])⟩
  | relockFinish ht =>
    exact .inl ⟨hm.goto hexcl ht rfl (by simp) rfl rfl (hkept (by simp [ht])) (by simp)
      (hm.started.within hexcl ht rfl), hquiet (by simp [ht])⟩
  | @commit t c k ht _ hcommit =>
    obtain ⟨-, hempty, hqueue⟩ :=
      hm.started.commit hexcl hself hm.writers ht hcommit
    obtain ⟨ops, size₀, hcall, hkeeps, haction⟩ := hm.commit hl hexcl ht hcommit (hproper.2 ht)
    refine .inr ⟨_, _, _, k.db, hkeeps, .write t ops size₀ c.heights, haction, ⟨rfl, hempty,
      Threads.at_of_free rfl rfl hqueue, ?_,
      fun hmem => absurd hmem (notify_not_mem_of_free hexcl' rfl)⟩, ?_⟩
    · intro _
      exact (hkept (by simp [ht])).trans (hm.files (notify_not_mem hexcl ht rfl (by simp)))
    · rw [hlog]
      simp only [logAfter, ht, hcall, Option.join_some]
  | backGroundCall ht hfree =>
    exact .inl ⟨hm.enter hexcl ht hfree rfl (hkept (by simp [ht])), hquiet (by simp [ht])⟩
  | compact ht hcomp =>
    obtain ⟨hs, hfree⟩ := hproper.1 ht
    exact .inl ⟨hm.compact hexcl ht hcomp hs hfree rfl hfiles, hquiet (by simp [ht])⟩
  | @notify t c ht =>
    obtain ⟨-, hempty, hqueue⟩ :=
      hm.started.notify hexcl hserial.counted hself hm.writers ht
    obtain ⟨env, w', hkeeps, haction, hdb, hdisk⟩ := hm.notify hserial.counted ht
    obtain ⟨call, hcall, hc⟩ := hl.exists_call ht
    obtain rfl := hc.eq_none rfl
    refine .inr ⟨_, _, w', _, hkeeps, .backGroundCall t env, haction, ⟨hdb, hempty,
      Threads.at_of_free rfl rfl hqueue, fun _ => (hkept (by simp [ht])).trans hdisk,
      fun hmem => absurd hmem (notify_not_mem_of_free hexcl' rfl)⟩, ?_⟩
    rw [hlog]
    simp only [logAfter, ht, hcall, Option.join_some]

/-! ### Runs -/

/-- The state of a session in which the threads have done the actions. -/
def Follows (db : DBimpl) (h : History) (w : World) : Prop :=
  h.threads.Serial db ∧ Ledger h ∧ ∃ d, Matches h w d

theorem follows_start {w : World} {db : DBimpl} (hserial : (Threads.start db).Serial db)
    (hdb : w.db = some db) (hw : db.writers = []) : Follows db (start db w.disk.sstable) w :=
  ⟨hserial, ledger_start db _ hw, db, hdb, hw, Threads.at_of_free rfl rfl rfl, fun _ => rfl,
    fun hmem => by cases hmem⟩

/-- The session goes on with one action, or it does not see the step. -/
def Advances (db : DBimpl) (h : History) (w : World) (h' : History) : Prop :=
  Follows db h' w ∧ h'.log = h.log ∨
    ∃ x a w', KeepsTables w a ∧ Did x a ∧ w.step a = .ok w' ∧ Follows db h' w' ∧
      h'.log = h.log ++ [x]

theorem follows_step {db : DBimpl} {w : World} (hf : Follows db h w) (hproper : Proper h e)
    (hstep : h.step e = .ok h') : Advances db h w h' := by
  obtain ⟨hserial, hl, d, hm⟩ := hf
  have hserial' : h'.threads.Serial db := DbThreads.serial_step hserial (step_eq_ok.1 hstep).1
  have hl' : Ledger h' := by
    refine hl.step hserial ?_ hstep
    rintro ops rfl
    exact hproper
  rcases matches_step hl hserial hm hproper hstep with
    ⟨hm', hlog⟩ | ⟨x, a, w', d', hkeeps, hx, haction, hm', hlog⟩
  · exact .inl ⟨⟨hserial', hl', d, hm'⟩, hlog⟩
  · exact .inr ⟨x, a, w', hkeeps, hx, haction, ⟨hserial', hl', d', hm'⟩, hlog⟩

/-- The machine with the threads in `Get`. -/
def stepWithGets : Shared History Bytes GetPoint (Option Bytes) → SharedEvent Event Bytes →
    Exec (Shared History Bytes GetPoint (Option Bytes)) :=
  Shared.step step (fun h => h.inner.busy) (fun h => h.inner.view) GetPoint.memtable getNext

/-- No thread has been started. -/
def startWithGets (db : DBimpl) (files : ℕ → Option Bytes) :
    Shared History Bytes GetPoint (Option Bytes) := ⟨start db files, []⟩

/-- Nothing is asked of the steps of `Get`. -/
def ProperWithGets (g : Shared History Bytes GetPoint (Option Bytes)) :
    SharedEvent Event Bytes → Prop
  | .inner e => Proper g.inner e
  | _ => True

variable {as : List Action} {w₀ : World} {u : Uninit} {db : DBimpl}
  {es : List (SharedEvent Event Bytes)} {g : Shared History Bytes GetPoint (Option Bytes)}

/-- Every run of the threads is a run of a session. -/
theorem follows_run {w : World} {g₀ : Shared History Bytes GetPoint (Option Bytes)}
    (hf : Follows db g₀.inner w) (hproper : Machine.Along stepWithGets ProperWithGets g₀ es)
    (h : Machine.run stepWithGets g₀ es = .ok g) :
    ∃ xs as w', g.inner.log = g₀.inner.log ++ xs ∧ List.Forall₂ Did xs as ∧
      Machine.Along World.step KeepsTables w as ∧ Machine.run World.step w as = .ok w' ∧
      Follows db g.inner w' := by
  have hstep : ∀ (g : Shared History Bytes GetPoint (Option Bytes)) (e : SharedEvent Event Bytes)
      (g' : Shared History Bytes GetPoint (Option Bytes)) (w : World), Follows db g.inner w →
      ProperWithGets g e → stepWithGets g e = .ok g' → Advances db g.inner w g'.inner := by
    intro g e g' w hf hproper hstep
    cases Shared.Step.of_step hstep with
    | inner hl _ => exact follows_step hf hproper hl
    | _ => exact .inl ⟨hf, rfl⟩
  exact Machine.run_stutters (R := fun g w => Follows db g.inner w) hstep hf hproper h

/-- What a thread was called with, and the operation of the store that it was. -/
inductive Executes : ℕ × Option (List WriteOp) → GenAction WriteOp → Prop
  | write (t : ℕ) (ops : List WriteOp) (rotates : Bool) :
      Executes (t, some ops) (.write ops rotates)
  | flush (t : ℕ) : Executes (t, none) .flush

theorem executes_of_did {x : ℕ × Option (List WriteOp)} {a : Action} {m : GenAction WriteOp}
    (hx : Did x a) (hm : ActionMatches a m) : Executes x m := by
  cases hx with
  | write t ops =>
    cases hm
    exact .write ..
  | backGroundCall t env =>
    cases hm
    exact .flush t

/-- A database that has just been opened remembers nothing. -/
theorem remembers_create (hall : Machine.Along World.step KeepsTables World.start as)
    (hrun : Machine.run World.step World.start as = .ok w₀) (hclosed : w₀.db = none)
    (hmake : DBimpl.make u w₀.disk.manifest = .ok db) :
    Remembers { w₀ with db := some db } (some .empty) := by
  have hserved : Served w₀ :=
    Machine.run_invariant (fun _ _ _ h ha hstep => served_step h ha hstep)
      (show Served World.start from .inl rfl) hall hrun
  have hrem : Remembers w₀ none :=
    ⟨hserved, by simp [hclosed], fun _ _ hdb => by cases hclosed.symm.trans hdb⟩
  have hstep : w₀.step (.create u) = .ok { w₀ with db := some db } := by
    simp only [World.step, hclosed, Option.isSome_none, Bool.false_eq_true, ↓reduceIte, hmake,
      Exec.ok_bind, Exec.pure_eq]
  obtain ⟨m, t, hm, ht, h⟩ := keeps_step (a := .create u) hrem trivial hstep
  cases hm
  cases ht
  exact h

/-- **The store has executed the log**, and it gives the answers. -/
theorem executes_of_run (hall : Machine.Along World.step KeepsTables World.start as)
    (hrun : Machine.run World.step World.start as = .ok w₀) (hclosed : w₀.db = none)
    (hmake : DBimpl.make u w₀.disk.manifest = .ok db)
    (hproper : Machine.Along stepWithGets ProperWithGets (startWithGets db w₀.disk.sstable) es)
    (h : Machine.run stepWithGets (startWithGets db w₀.disk.sstable) es = .ok g) :
    Ledger g.inner ∧ ∃ ms gen, List.Forall₂ Executes g.inner.log ms ∧
      Machine.run Generations.step (some .empty) ms = .ok (some gen) ∧
      (g.inner.inner.busy = false → ∀ key, KeyFits key [] →
        g.inner.threads.db.get g.inner.inner.files key =
          .ok ((lastCutTo key gen.remembered).map WriteOp.stored)) := by
  obtain ⟨hw, -⟩ := DBimpl.make_frame hmake
  have hf : Follows db (startWithGets db w₀.disk.sstable).inner { w₀ with db := some db } :=
    follows_start (w := { w₀ with db := some db }) (DbThreads.serial_start hmake) rfl hw
  obtain ⟨xs, as', w, hlog, hxs, halong, hrun', hserial, hl, d, hm⟩ :=
    follows_run hf hproper h
  have hrem := remembers_create hall hrun hclosed hmake
  obtain ⟨ms, t, hms, ht, hserved, hnone, hkeeps⟩ :=
    Machine.run_simulates (fun _ _ _ _ h ha hstep => keeps_step h ha hstep) hrem halong hrun'
  cases t with
  | none => cases hm.running.symm.trans (hnone.2 rfl)
  | some gen =>
    refine ⟨hl, ms, gen, ?_, ht, ?_⟩
    · rw [hlog]
      exact Machine.forall₂_trans (P := Did) (Q := ActionMatches)
        (fun _ _ _ hx hm => executes_of_did hx hm) hxs hms
    · intro hfree key hkey
      have hlock : g.inner.threads.rwlock = none := by simpa [DbThreads.busy] using hfree
      obtain ⟨hdb, -⟩ := hm.started.free hlock
      rw [hdb, hm.files (notify_not_mem_of_free hserial.excl hlock)]
      exact (hkeeps d gen hm.running rfl).get_eq (hserved.running hm.running) hkey

/-- The returned threads of the ledger. -/
theorem Ledger.mem_log_iff (hl : Ledger h) {t : ℕ} {c : Option (List WriteOp)} :
    (t, c) ∈ h.log ↔ h.threads.points[t]? = some .returned ∧ h.calls[t]? = some c := by
  rw [hl.mem_log, List.getElem?_map]
  cases h.threads.points[t]? with
  | none => simp
  | some p => cases p <;> simp [Point.isReturned]

/-- **All calls take effect once, one after the other.**  Threads in `Write` and `Get` and
compaction threads are interleaved in any way.  The log holds every thread of `Write` and
`BackGroundCall` that has returned, once, and the store of two generations can execute these calls
in the order of the log.  When nobody holds `rwlock_`, a `Get` of any key would answer from what
the store remembers. -/
theorem log_linearizes (hall : Machine.Along World.step KeepsTables World.start as)
    (hrun : Machine.run World.step World.start as = .ok w₀) (hclosed : w₀.db = none)
    (hmake : DBimpl.make u w₀.disk.manifest = .ok db)
    (hproper : Machine.Along stepWithGets ProperWithGets (startWithGets db w₀.disk.sstable) es)
    (h : Machine.run stepWithGets (startWithGets db w₀.disk.sstable) es = .ok g) :
    (g.inner.log.map Prod.fst).Nodup ∧
    (∀ t c, (t, c) ∈ g.inner.log ↔
      g.inner.threads.points[t]? = some .returned ∧ g.inner.calls[t]? = some c) ∧
    ∃ ms gen, List.Forall₂ Executes g.inner.log ms ∧
      Machine.run Generations.step (some .empty) ms = .ok (some gen) ∧
      (g.inner.inner.busy = false → ∀ key, KeyFits key [] →
        g.inner.threads.db.get g.inner.inner.files key =
          .ok ((lastCutTo key gen.remembered).map WriteOp.stored)) := by
  obtain ⟨hl, hgen⟩ := executes_of_run hall hrun hclosed hmake hproper h
  exact ⟨hl.nodup, fun _ _ => hl.mem_log_iff, hgen⟩

/-- A test for a run in which all file operations succeed. -/
def properTest (g : Shared History Bytes GetPoint (Option Bytes)) :
    SharedEvent Event Bytes → Bool
  | .inner (.call ops) => decide (∀ op ∈ ops, op.Small)
  | .inner (.run t _) =>
    let db := g.inner.threads.db
    match g.inner.threads.points[t]?, g.inner.calls[t]? with
    | some .compact, _ => decide (db.sstableNumber ∉ db.fileMetas.map FileMeta.number)
    | some .commit, some (some ops) =>
      decide (db.lastSequence + ops.length < storedSeq UINT64_MAX)
    | _, _ => true
  | _ => true

theorem proper_of_test {e : SharedEvent Event Bytes}
    (henv : ∀ t c, e = .inner (.run t c) → c.env.Succeeds) (h : properTest g e = true) :
    ProperWithGets g e := by
  cases e with
  | inner e =>
    cases e with
    | call ops =>
      have hsmall : ∀ op ∈ ops, op.Small := of_decide_eq_true h
      exact hsmall
    | wake t => trivial
    | run t c =>
      unfold properTest at h
      refine ⟨fun ht => ⟨henv t c rfl, ?_⟩, fun ht ops hcall => ?_⟩
      · simp only [ht] at h
        exact of_decide_eq_true h
      · simp only [ht, hcall] at h
        exact of_decide_eq_true h
  | _ => trivial

/-- Two writers of which the second one rotates the memtables, a `Get` of the first key, the
compaction, and a second `Get` of the same key. -/
def traceCompaction : List (SharedEvent Event Bytes) :=
  let go (t : ℕ) := SharedEvent.inner (.run t ⟨0, flatHeights, .accepting⟩)
  [.inner (.call [.put [97] [49]]), go 0, go 0, go 0, go 0,
    .inner (.call [.put [98] [50]]), go 1, go 1, go 1, go 1, go 1,
    .call [97], .run 0, .run 0, .run 0,
    go 2, go 2, go 2,
    .call [97], .run 1, .run 1, .run 1, .run 1, .run 1]

theorem proper_traceCompaction : Machine.Along stepWithGets ProperWithGets
    (startWithGets (.fresh ⟨4095, false, 0⟩) fun _ => none) traceCompaction := by
  refine Machine.along_of_check (D := properTest) ?_ (by decide +kernel)
  intro g e he h
  refine proper_of_test ?_ h
  rintro t c rfl
  have henv : c.env = .accepting := by
    simp only [traceCompaction, List.mem_cons, SharedEvent.inner.injEq, reduceCtorEq,
      Event.run.injEq, List.not_mem_nil, or_self, or_false, false_or, or_self_left] at he
    rcases he with he | he | he <;> rw [he.2]
  rw [henv]
  exact BuildEnv.accepting_succeeds

/-- Where the run ends: the second `Get` finds nothing. -/
theorem run_traceCompaction : ∃ g,
    Machine.run stepWithGets (startWithGets (.fresh ⟨4095, false, 0⟩) fun _ => none)
      traceCompaction = .ok g ∧
    g.readers = [.returned (some [49]), .returned none] ∧ g.inner.log.map Prod.fst = [0, 1, 2] := by
  have hrun : (Machine.run stepWithGets (startWithGets (.fresh ⟨4095, false, 0⟩) fun _ => none)
      traceCompaction).map (fun g => (g.readers, g.inner.log.map Prod.fst)) =
      .ok ([.returned (some [49]), .returned none], [0, 1, 2]) := by
    decide +kernel
  obtain ⟨g, hg, hdata⟩ := Exec.exists_of_map hrun
  exact ⟨g, hg, congrArg Prod.fst hdata, congrArg Prod.snd hdata⟩

theorem log_linearizes_traceCompaction : ∃ g,
    Machine.run stepWithGets (startWithGets (.fresh ⟨4095, false, 0⟩) fun _ => none)
      traceCompaction = .ok g ∧
    g.inner.log.map Prod.fst = [0, 1, 2] ∧
    (g.inner.log.map Prod.fst).Nodup ∧
    (∀ t c, (t, c) ∈ g.inner.log ↔
      g.inner.threads.points[t]? = some .returned ∧ g.inner.calls[t]? = some c) ∧
    ∃ ms gen, List.Forall₂ Executes g.inner.log ms ∧
      Machine.run Generations.step (some .empty) ms = .ok (some gen) ∧
      (g.inner.inner.busy = false → ∀ key, KeyFits key [] →
        g.inner.threads.db.get g.inner.inner.files key =
          .ok ((lastCutTo key gen.remembered).map WriteOp.stored)) := by
  obtain ⟨g, hg, -, hlog⟩ := run_traceCompaction
  have hall : Machine.Along World.step KeepsTables World.start [] := trivial
  have hmake : DBimpl.make ⟨4095, false, 0⟩ World.start.disk.manifest =
      .ok (.fresh ⟨4095, false, 0⟩) := rfl
  exact ⟨g, hg, hlog, log_linearizes hall rfl rfl hmake proper_traceCompaction hg⟩

/-- **Every `Get` answers from the store.**  Whatever a `Get` has returned is the answer of the
store of two generations after a part of the log, namely of what had returned at a moment between
the call of the `Get` and its return. -/
theorem gets_linearize (hall : Machine.Along World.step KeepsTables World.start as)
    (hrun : Machine.run World.step World.start as = .ok w₀) (hclosed : w₀.db = none)
    (hmake : DBimpl.make u w₀.disk.manifest = .ok db)
    (hproper : Machine.Along stepWithGets ProperWithGets (startWithGets db w₀.disk.sstable) es)
    (h : Machine.run stepWithGets (startWithGets db w₀.disk.sstable) es = .ok g) {i : ℕ}
    {o : Option Bytes} (hi : g.readers[i]? = some (.returned o)) :
    ∃ es₁ es₂ g₁ key ms gen, es = es₁ ++ es₂ ∧
      Machine.run stepWithGets (startWithGets db w₀.disk.sstable) es₁ = .ok g₁ ∧
      g₁.readers[i]? = some (.waiting key) ∧ g₁.inner.log <+: g.inner.log ∧
      (∀ t c, (t, c) ∈ g₁.inner.log ↔
        g₁.inner.threads.points[t]? = some .returned ∧ g₁.inner.calls[t]? = some c) ∧
      List.Forall₂ Executes g₁.inner.log ms ∧
      Machine.run Generations.step (some .empty) ms = .ok (some gen) ∧
      (KeyFits key [] → o = (lastCutTo key gen.remembered).map WriteOp.stored) := by
  have hentered := Shared.returned_linearizes (I := fun h => h.threads.Serial db)
    (fun _ _ _ hs hstep => DbThreads.serial_step hs (step_eq_ok.1 hstep).1)
    (fun _ _ _ hs hstep => DbThreads.view_of_free hs (step_eq_ok.1 hstep).1)
    (m := start db w₀.disk.sstable) (DbThreads.serial_start hmake) h hi
  obtain ⟨es₁, es₂, g₁, key, rfl, hrun₁, hfree, hwait, hanswer⟩ := hentered
  obtain ⟨g₂, hg₂, hrest⟩ := Machine.run_append_ok.1 h
  cases hrun₁.symm.trans hg₂
  have hproper₁ := (Machine.along_append.1 hproper).1
  obtain ⟨hl, ms, gen, hms, hgen, hget⟩ :=
    executes_of_run hall hrun hclosed hmake hproper₁ hrun₁
  refine ⟨es₁, es₂, g₁, key, ms, gen, rfl, hrun₁, hwait, log_prefix (Shared.reachable_inner hrest),
    fun _ _ => hl.mem_log_iff, hms, hgen, ?_⟩
  intro hkey
  have hread := getRest_of_answers hanswer
  exact Except.ok.inj (hread.symm.trans (hget hfree key hkey))

theorem gets_linearize_traceCompaction : ∃ g es₁ es₂ g₁ key ms gen,
    Machine.run stepWithGets (startWithGets (.fresh ⟨4095, false, 0⟩) fun _ => none)
      traceCompaction = .ok g ∧
    traceCompaction = es₁ ++ es₂ ∧
    Machine.run stepWithGets (startWithGets (.fresh ⟨4095, false, 0⟩) fun _ => none) es₁ = .ok g₁ ∧
    g₁.readers[1]? = some (.waiting key) ∧ g₁.inner.log <+: g.inner.log ∧
    (∀ t c, (t, c) ∈ g₁.inner.log ↔
      g₁.inner.threads.points[t]? = some .returned ∧ g₁.inner.calls[t]? = some c) ∧
    List.Forall₂ Executes g₁.inner.log ms ∧
    Machine.run Generations.step (some .empty) ms = .ok (some gen) ∧
    (KeyFits key [] → none = (lastCutTo key gen.remembered).map WriteOp.stored) := by
  obtain ⟨g, hg, hreaders, -⟩ := run_traceCompaction
  have hall : Machine.Along World.step KeepsTables World.start [] := trivial
  have hmake : DBimpl.make ⟨4095, false, 0⟩ World.start.disk.manifest =
      .ok (.fresh ⟨4095, false, 0⟩) := rfl
  have hi : g.readers[1]? = some (.returned none) := by
    rw [hreaders]
    rfl
  obtain ⟨es₁, es₂, g₁, key, ms, gen, hrest⟩ :=
    gets_linearize hall rfl rfl hmake proper_traceCompaction hg hi
  exact ⟨g, es₁, es₂, g₁, key, ms, gen, hg, hrest⟩

end History

end KoishiDB
