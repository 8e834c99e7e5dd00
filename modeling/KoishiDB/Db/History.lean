import KoishiDB.Base.Heap
import KoishiDB.Db.Flush
import KoishiDB.Db.Readers

/-!
# The history of the threads

The threads of `KoishiDB.Db.Readers` with a history beside them: what each thread was called with,
and the threads that are through, in the order in which they did their work.  The history changes
nothing that the threads do (`exists_run`).

* `Ledger.step` : the log holds every thread of `Write` and `BackGroundCall` that has returned, once
  and with what it was called with; and the writer in the queue is the thread that holds `rwlock_`.
* `log_prefix` : nothing is taken back.
-/

namespace KoishiDB

/-- The thread is at its end. -/
def Point.isReturned : Point → Bool
  | returned => true
  | _ => false

@[simp] theorem Point.isReturned_notifyTurn (done : Bool) (p : Point) :
    (p.notifyTurn done).isReturned = p.isReturned := by
  cases p <;> rfl

@[simp] theorem Point.isReturned_notifyFinish (p : Point) :
    p.notifyFinish.isReturned = p.isReturned := by
  cases p <;> rfl

theorem Point.isReturned_eq_false {p : Point} (hp : p ≠ returned) : p.isReturned = false := by
  cases p with
  | returned => exact absurd rfl hp
  | _ => rfl

/-- A thread can go from the one point to the other, neither at its start nor at its end. -/
def Point.Moves (p q : Point) : Prop :=
  p ≠ commit ∧ p ≠ notify ∧ p ≠ returned ∧ q ≠ returned ∧ (∀ update, q ≠ write update) ∧
    q.canSignal = p.canSignal

/-- The threads and their history. -/
structure History where
  inner : DbThreads
  /-- What each thread was called with; a compaction thread was called with nothing. -/
  calls : List (Option (List WriteOp))
  /-- The threads that are through, each with what it was called with. -/
  log : List (ℕ × Option (List WriteOp))

namespace History

/-- The threads. -/
abbrev threads (h : History) : Threads := h.inner.threads

/-- The calls after a step.  New threads come at the end, and those that a thread starts are
compaction threads. -/
def callsAfter (h : History) (t : Threads) : Event → List (Option (List WriteOp))
  | .call ops => h.calls ++ [some ops]
  | _ => h.calls ++ List.replicate (t.points.length - h.threads.points.length) none

/-- The log after a step: a thread is through with the last part of `Write` or of
`BackGroundCall`. -/
def logAfter (h : History) : Event → List (ℕ × Option (List WriteOp))
  | .run t _ =>
    match h.threads.points[t]? with
    | some .commit | some .notify => h.log ++ [(t, h.calls[t]?.join)]
    | _ => h.log
  | _ => h.log

/-- The machine of `KoishiDB.Db.Readers` with its history. -/
def step (h : History) (e : Event) : Exec History := do
  let inner ← h.inner.step e
  return ⟨inner, h.callsAfter inner.threads e, h.logAfter e⟩

/-- No thread has been started. -/
def start (db : DBimpl) (files : ℕ → Option Bytes) : History := ⟨⟨.start db, files⟩, [], []⟩

variable {h h' : History} {e : Event}

theorem step_eq_ok : h.step e = .ok h' ↔ h.inner.step e = .ok h'.inner ∧
    h' = ⟨h'.inner, h.callsAfter h'.threads e, h.logAfter e⟩ := by
  constructor
  · intro hstep
    obtain ⟨inner, hinner, hstep⟩ := Exec.bind_eq_ok.1 hstep
    cases hstep
    exact ⟨hinner, rfl⟩
  · rintro ⟨hinner, heq⟩
    rw [step, hinner, heq]
    rfl

/-- **The history changes nothing**: every run of the threads is one with a history. -/
theorem exists_run {s : DbThreads} {es : List Event}
    (hrun : Machine.run DbThreads.step h.inner es = .ok s) :
    ∃ h', Machine.run step h es = .ok h' ∧ h'.inner = s := by
  induction es generalizing h with
  | nil =>
    cases hrun
    exact ⟨h, rfl, rfl⟩
  | cons e es ih =>
    obtain ⟨t, ht, hrun⟩ := Machine.run_cons_ok.1 hrun
    obtain ⟨h', hh', hinner⟩ := ih (h := ⟨t, h.callsAfter t.threads e, h.logAfter e⟩) hrun
    exact ⟨h', Machine.run_cons_ok.2 ⟨_, step_eq_ok.2 ⟨ht, rfl⟩, hh'⟩, hinner⟩

/-- A step leaves the calls alone if it starts no thread. -/
theorem callsAfter_of_length {t : Threads} (he : ∀ ops, e ≠ .call ops)
    (hlen : t.points.length = h.threads.points.length) : h.callsAfter t e = h.calls := by
  cases e with
  | call ops => exact absurd rfl (he ops)
  | wake t => simp [callsAfter, hlen]
  | run t c => simp [callsAfter, hlen]

/-- The log only changes at the last part of a call. -/
theorem logAfter_of_not_last (he : ∀ t c, e = .run t c →
    h.threads.points[t]? ≠ some .commit ∧ h.threads.points[t]? ≠ some .notify) :
    h.logAfter e = h.log := by
  cases e with
  | run t c =>
    obtain ⟨hcommit, hnotify⟩ := he t c rfl
    unfold logAfter
    dsimp only
    split
    · rename_i ht
      exact absurd ht hcommit
    · rename_i ht
      exact absurd ht hnotify
    · rfl
  | _ => rfl

/-- Nothing is taken back. -/
theorem log_prefix_step (hstep : h.step e = .ok h') : h.log <+: h'.log := by
  obtain ⟨-, heq⟩ := step_eq_ok.1 hstep
  rw [heq]
  unfold logAfter
  split
  · split
    · exact List.prefix_append ..
    · exact List.prefix_append ..
    · exact List.prefix_rfl
  · exact List.prefix_rfl

theorem log_prefix (hreach : Machine.Reachable step h h') : h.log <+: h'.log :=
  hreach.invariant (I := fun g => h.log <+: g.log)
    (fun _ _ _ hle hstep => hle.trans (log_prefix_step hstep)) List.prefix_rfl

/-! ### The log holds the threads that have returned -/

/-- Where a thread can be that was called with small operations, or with nothing. -/
def Called (p : Point) : Option (List WriteOp) → Prop
  | none => p.canSignal = true ∨ p = .returned
  | some ops => p.canSignal = false ∧ (∀ op ∈ ops, op.Small) ∧
      ∀ update, p = .write update → WriteBatch.build ops = .ok update

theorem Called.move {p q : Point} {c : Option (List WriteOp)} (hc : Called p c) (hpq : p.Moves q) :
    Called q c := by
  obtain ⟨-, -, hp, -, hq, hsignal⟩ := hpq
  cases c with
  | none => exact .inl (hsignal.trans (hc.resolve_right hp))
  | some ops => exact ⟨hsignal.trans hc.1, hc.2.1, fun update hwrite => absurd hwrite (hq update)⟩

theorem Called.returned {p : Point} {c : Option (List WriteOp)} (hc : Called p c) :
    Called .returned c := by
  cases c with
  | none => exact .inr rfl
  | some ops => exact ⟨rfl, hc.2.1, by simp⟩

/-- A thread that writes was called with something. -/
theorem Called.exists_ops {p : Point} {c : Option (List WriteOp)} (hc : Called p c)
    (hp : p.canSignal = false) (hret : p ≠ .returned) : ∃ ops, c = some ops := by
  cases c with
  | none =>
    rcases hc with hsignal | hreturned
    · cases hp.symm.trans hsignal
    · exact absurd hreturned hret
  | some ops => exact ⟨ops, rfl⟩

/-- A compaction thread was called with nothing. -/
theorem Called.eq_none {p : Point} {c : Option (List WriteOp)} (hc : Called p c)
    (hp : p.canSignal = true) : c = none := by
  cases c with
  | none => rfl
  | some ops => cases hp.symm.trans hc.1

/-- **The ledger.**  The log holds each thread that has returned once, with what it was called
with, and the writer in the queue is the thread that holds `rwlock_`. -/
structure Ledger (h : History) : Prop where
  called : List.Forall₂ Called h.threads.points h.calls
  nodup : (h.log.map Prod.fst).Nodup
  mem_log : ∀ t c, (t, c) ∈ h.log ↔
    (h.threads.points.map Point.isReturned)[t]? = some true ∧ h.calls[t]? = some c
  writer : ∀ w ∈ h.threads.db.writers, ∃ t ops, h.threads.rwlock = some t ∧
    h.calls[t]? = some (some ops) ∧ WriteBatch.build ops = .ok w.batch

theorem ledger_start (db : DBimpl) (files : ℕ → Option Bytes) (hw : db.writers = []) :
    Ledger (start db files) where
  called := .nil
  nodup := List.nodup_nil
  mem_log t ops := by simp [start, Threads.start]
  writer w hmem := by
    rw [show (start db files).threads.db.writers = [] from hw] at hmem
    cases hmem

/-- Nobody is notified if nobody else is in the queue. -/
theorem points_notifyWriters {s : Threads} {t : ℕ} {popped : List ℕ} (hpopped : ∀ u ∈ popped, u = t)
    (hqueue : s.queue = []) : (s.notifyWriters t popped).points = s.points := by
  refine List.ext_getElem? fun u => ?_
  simp only [Threads.notifyWriters, List.getElem?_mapIdx, hqueue, List.head?_nil, reduceCtorEq,
    ↓reduceIte]
  have hnot : ¬ (u ≠ t ∧ u ∈ popped) := fun hu => hu.1 (hpopped u hu.2)
  simp [hnot]

namespace Ledger

variable {inner : DbThreads} {t : ℕ} {p q : Point}

theorem exists_call (hl : Ledger h) (ht : h.threads.points[t]? = some p) :
    ∃ c, h.calls[t]? = some c ∧ Called p c :=
  forall₂_getElem? (R := fun c p => Called p c) hl.called.flip ht

/-- A thread moves. -/
theorem move (hl : Ledger h) (he : e = .wake t ∨ ∃ c, e = .run t c)
    (ht : h.threads.points[t]? = some p)
    (hpoints : inner.threads.points = h.threads.points.set t q) (hpq : p.Moves q)
    (hwriter : ∀ w ∈ inner.threads.db.writers, ∃ u ops, inner.threads.rwlock = some u ∧
      h.calls[u]? = some (some ops) ∧ WriteBatch.build ops = .ok w.batch) :
    Ledger ⟨inner, h.callsAfter inner.threads e, h.logAfter e⟩ := by
  have hcalls : h.callsAfter inner.threads e = h.calls := by
    refine callsAfter_of_length ?_ (by rw [hpoints, List.length_set])
    rintro ops rfl
    rcases he with he | ⟨c, he⟩ <;> cases he
  have ⟨hcommit, hnotify, hp, hq, _⟩ := hpq
  have hlog : h.logAfter e = h.log := by
    refine logAfter_of_not_last ?_
    rintro u c rfl
    rcases he with he | ⟨c', he⟩
    · cases he
    · cases he
      simp [ht, hcommit, hnotify]
  have hret : q.isReturned = p.isReturned := by
    rw [Point.isReturned_eq_false hp, Point.isReturned_eq_false hq]
  rw [hcalls, hlog]
  refine ⟨?_, hl.nodup, ?_, hwriter⟩
  · dsimp only [threads]
    rw [hpoints]
    exact forall₂_set_left hl.called ht fun _ hc => hc.move hpq
  · intro u ops
    dsimp only [threads]
    rw [hpoints, map_set_of_eq ht hret]
    exact hl.mem_log u ops

/-- New threads come. -/
theorem append (hl : Ledger h) {points : List Point} {calls : List (Option (List WriteOp))}
    (hnew : List.Forall₂ Called points calls) (hret : ∀ p ∈ points, p.isReturned = false)
    (hpoints : inner.threads.points = h.threads.points ++ points)
    (hlock : inner.threads.rwlock = h.threads.rwlock)
    (hwriters : inner.threads.db.writers = h.threads.db.writers) :
    Ledger ⟨inner, h.calls ++ calls, h.log⟩ := by
  have hlen := hl.called.length_eq
  refine ⟨?_, hl.nodup, ?_, ?_⟩
  · dsimp only [threads]
    rw [hpoints]
    exact List.rel_append hl.called hnew
  · intro u ops
    dsimp only [threads]
    rw [hl.mem_log, hpoints, List.map_append, List.getElem?_append, List.getElem?_append,
      List.length_map, hlen]
    split_ifs with hu
    · rfl
    · refine iff_of_false ?_ ?_
      · rintro ⟨-, hcall⟩
        exact hu (List.getElem?_eq_some_iff.1 hcall).1
      · rintro ⟨htrue, -⟩
        obtain ⟨p, hp, heq⟩ := List.mem_map.1 (List.mem_of_getElem? htrue)
        cases (hret p hp).symm.trans heq
  · intro w hw
    dsimp only [threads] at hw ⊢
    rw [hwriters] at hw
    obtain ⟨u, ops, hu, hcall, hbuild⟩ := hl.writer w hw
    refine ⟨u, ops, hlock.trans hu, ?_, hbuild⟩
    rw [List.getElem?_append_left (List.getElem?_eq_some_iff.1 hcall).1]
    exact hcall

/-- A thread is through. -/
theorem returns (hl : Ledger h) {c : Choice} (ht : h.threads.points[t]? = some p)
    (hp : p = .commit ∨ p = .notify)
    (hpoints : inner.threads.points.map Point.isReturned =
      (h.threads.points.map Point.isReturned).set t true)
    (hcalled : List.Forall₂ Called inner.threads.points h.calls)
    (hwriters : inner.threads.db.writers = []) :
    Ledger ⟨inner, h.callsAfter inner.threads (.run t c), h.logAfter (.run t c)⟩ := by
  obtain ⟨call, hcall, -⟩ := hl.exists_call ht
  have hlen : inner.threads.points.length = h.threads.points.length := by
    rw [hcalled.length_eq, hl.called.length_eq]
  have hlt : t < (h.threads.points.map Point.isReturned).length := by
    rw [List.length_map]
    exact (List.getElem?_eq_some_iff.1 ht).1
  have hout : (h.threads.points.map Point.isReturned)[t]? = some false := by
    rw [List.getElem?_map, ht]
    rcases hp with rfl | rfl <;> rfl
  have hlog : h.logAfter (.run t c) = h.log ++ [(t, call)] := by
    rcases hp with rfl | rfl <;> simp only [logAfter, ht, hcall, Option.join_some]
  have hnew : ∀ c', (t, c') ∉ h.log := by
    intro c' hmem
    cases hout.symm.trans ((hl.mem_log t c').1 hmem).1
  rw [callsAfter_of_length (by simp) hlen, hlog]
  refine ⟨hcalled, ?_, ?_, ?_⟩
  · rw [List.map_append, List.map_singleton, List.nodup_append]
    refine ⟨hl.nodup, List.nodup_singleton _, ?_⟩
    rintro u hu _ hv rfl
    obtain ⟨⟨u', c'⟩, hmem, rfl⟩ := List.mem_map.1 hu
    cases List.mem_singleton.1 hv
    exact hnew c' hmem
  · intro u c'
    dsimp only [threads]
    rw [hpoints, List.mem_append, List.mem_singleton, hl.mem_log, Prod.mk.injEq]
    by_cases hut : u = t
    · subst hut
      rw [List.getElem?_set_self hlt, hcall, hout]
      simp [eq_comm]
    · rw [List.getElem?_set_ne (Ne.symm hut)]
      simp [hut]
  · intro w hw
    dsimp only [threads] at hw
    rw [hwriters] at hw
    cases hw

/-- **One step of a thread** keeps the ledger. -/
theorem step {db₀ : DBimpl} (hl : Ledger h) (hserial : h.threads.Serial db₀)
    (hsmall : ∀ ops, e = .call ops → ∀ op ∈ ops, op.Small) (hstep : h.step e = .ok h') :
    Ledger h' := by
  obtain ⟨hinner, heq⟩ := step_eq_ok.1 hstep
  have hthreads := Threads.Step.of_step (DbThreads.threads_step hinner).1
  obtain ⟨d, -, hw, hat⟩ := hserial.started
  have hself : Machine.Reachable DBimpl.perform d d := ⟨[], rfl⟩
  rw [heq]
  obtain ⟨⟨s', files'⟩, calls', log'⟩ := h'
  dsimp only [threads] at hthreads ⊢
  cases hthreads with
  | @call ops update hbuild =>
    have hcalled : Called (.write update) (some ops) := by
      refine ⟨rfl, hsmall ops rfl, ?_⟩
      rintro _ ⟨⟩
      exact hbuild
    exact hl.append (.cons hcalled .nil) (by simp [Point.isReturned]) rfl rfl rfl
  | wakeTurn ht => exact (hat.within hserial.excl ht rfl).elim
  | wakeFinish ht =>
    exact hl.move (.inl rfl) ht rfl (by simp [Point.Moves, Point.canSignal]) hl.writer
  | @write t c update ht hfree =>
    have hempty : h.threads.db.writers = [] := by
      refine List.eq_nil_iff_forall_not_mem.2 fun w hmem => ?_
      obtain ⟨u, ops, hu, -⟩ := hl.writer w hmem
      cases hu.symm.trans hfree
    obtain ⟨call, hcall, hc⟩ := hl.exists_call ht
    obtain ⟨ops, rfl⟩ := hc.exists_ops rfl (by simp)
    have hfront : (h.threads.queue ++ [t]).head? = some t := by
      rw [((hat.free hfree).2 : h.threads.queue = [])]
      rfl
    have hpush : { h.threads with rwlock := some t }.push t update =
        { h.threads with
          db := { h.threads.db with writers := [⟨update, false⟩] }
          rwlock := some t
          queue := h.threads.queue ++ [t]
          points := h.threads.points.set t (.turn false) } := by
      simp only [Threads.push, hfront, ↓reduceIte, hempty, List.nil_append]
      rfl
    rw [hpush]
    refine hl.move (.inr ⟨_, rfl⟩) ht rfl (by simp [Point.Moves, Point.canSignal]) ?_
    intro w hmem
    cases List.mem_singleton.1 hmem
    exact ⟨t, ops, rfl, hcall, hc.2.2 update rfl⟩
  | relockTurn ht => exact (hat.within hserial.excl ht rfl).elim
  | done ht => exact absurd (hat.within hserial.excl ht rfl).1 (by simp)
  | turn ht =>
    exact hl.move (.inr ⟨_, rfl⟩) ht rfl (by simp [Point.Moves, Point.canSignal]) hl.writer
  | room ht _ =>
    exact hl.move (.inr ⟨_, rfl⟩) ht rfl (by simp [Point.Moves, Point.canSignal]) hl.writer
  | wait ht _ _ =>
    exact hl.move (.inr ⟨_, rfl⟩) ht rfl (by simp [Point.Moves, Point.canSignal]) hl.writer
  | @rotate t c ht _ _ =>
    have hlog : h.logAfter (.run t c) = h.log := by
      refine logAfter_of_not_last ?_
      rintro _ _ ⟨⟩
      simp [ht]
    rw [hlog]
    refine hl.append ?_ ?_ rfl rfl (by simp)
    · dsimp only
      rw [List.length_append, Nat.add_sub_cancel_left, List.length_replicate]
      exact forall₂_replicate (.inl rfl)
    · intro p hp
      rw [List.eq_of_mem_replicate hp]
      rfl
  | relockFinish ht =>
    exact hl.move (.inr ⟨_, rfl⟩) ht rfl (by simp [Point.Moves, Point.canSignal]) hl.writer
  | @commit t c k ht _ hcommit =>
    obtain ⟨-, hempty, hqueue⟩ := hat.commit hserial.excl hself hw ht hcommit
    obtain ⟨hq, -⟩ := hat.within hserial.excl ht rfl
    have hpopped : ∀ u ∈ h.threads.queue.take k.popped.length, u = t :=
      fun u hu => List.mem_singleton.1 (hq ▸ List.mem_of_mem_take hu)
    have hpoints : ({ h.threads with
        db := k.db
        queue := h.threads.queue.drop k.popped.length }.notifyWriters t
          (h.threads.queue.take k.popped.length)).points = h.threads.points :=
      points_notifyWriters hpopped hqueue
    refine hl.returns ht (.inl rfl) ?_ ?_ hempty
    · simp only [Threads.finish, Threads.goto, hpoints, List.map_set]
      rfl
    · simp only [Threads.finish, Threads.goto, hpoints]
      exact forall₂_set_left hl.called ht fun _ hc => hc.returned
  | backGroundCall ht hfree =>
    refine hl.move (.inr ⟨_, rfl⟩) ht rfl (by simp [Point.Moves, Point.canSignal]) ?_
    intro w hmem
    obtain ⟨u, ops, hu, -⟩ := hl.writer w hmem
    cases hu.symm.trans hfree
  | compact ht hcomp =>
    refine hl.move (.inr ⟨_, rfl⟩) ht rfl (by simp [Point.Moves, Point.canSignal]) ?_
    dsimp only
    rw [(DBimpl.backGroundCompaction_frame hcomp).1]
    exact hl.writer
  | notify ht =>
    obtain ⟨-, hempty, -⟩ := hat.notify hserial.excl hserial.counted hself hw ht
    refine hl.returns ht (.inr rfl) ?_ ?_ hempty
    · simp only [Threads.finish, Threads.goto, List.map_set, List.map_map]
      congr 1
      exact List.map_congr_left fun p _ => p.isReturned_notifyFinish
    · have hall : List.Forall₂ Called (h.threads.points.map Point.notifyFinish) h.calls := by
        refine List.forall₂_map_left_iff.2 (hl.called.imp ?_)
        intro p call hc
        cases p with
        | waitFinish => exact hc.move (by simp [Point.Moves, Point.notifyFinish, Point.canSignal])
        | _ => exact hc
      refine forall₂_set_left hall (b := .notify) ?_ fun _ hc => hc.returned
      rw [List.getElem?_map, ht]
      rfl

end Ledger

end History

end KoishiDB
