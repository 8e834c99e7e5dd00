import KoishiDB.Db.Locks
import KoishiDB.Db.Manifest

/-!
# Is a compaction coming?

`MakeRoomForWrite` waits for the compaction of `immutable_memtable_`, so a compaction thread should
be on its way whenever there is an immutable memtable.  The only call of `MaybeScheduleCompaction`
is the one at the rotation.  It starts no thread when `background_compaction_schedule_`, which the
constructor does not initialise, happens to be true; and a compaction whose `BuildTable` fails keeps
the immutable memtable and starts no other one.

* `Step.pending_cases` : what a step does to the compactions that are coming.
* `Bounded` : in every run at most one compaction is coming, and none without an immutable memtable.
* `compaction_coming_iff` : the runs in which one is always coming.
-/

namespace KoishiDB

/-- The thread is going to call `BackGroundCompaction`. -/
def Point.pending : Point → Bool
  | backGroundCall | compact => true
  | _ => false

@[simp] theorem Point.pending_notifyTurn (done : Bool) (p : Point) :
    (p.notifyTurn done).pending = p.pending := by
  cases p <;> rfl

@[simp] theorem Point.pending_notifyFinish (p : Point) : p.notifyFinish.pending = p.pending := by
  cases p <;> rfl

namespace Threads

/-- How many threads are going to call `BackGroundCompaction`. -/
def pending (s : Threads) : ℕ := s.points.countP Point.pending

/-- **A compaction is coming** if there is something to compact. -/
def Coming (s : Threads) : Prop :=
  s.db.immutableMemtable.isSome = true → ∃ p ∈ s.points, p = .backGroundCall ∨ p = .compact

/-- The step leaves an immutable memtable that nobody is going to compact: a rotation while the flag
says that a compaction has been scheduled, or a compaction that fails. -/
def Drops (s : Threads) : Event → Prop
  | .run t c =>
    s.points[t]? = some .makeRoom ∧ kMaxMemtableSize ≤ s.db.memtable.estimatedSize ∧
        s.db.immutableMemtable = none ∧ s.db.backgroundCompactionSchedule = true ∨
      s.points[t]? = some .compact ∧
        ∃ db r, s.db.backGroundCompaction c.env = .ok (db, some r) ∧ r.status ≠ .OK
  | _ => False

variable {s s' : Threads} {e : Event}

theorem coming_iff : s.Coming ↔ s.db.immutableMemtable.isSome.toNat ≤ s.pending := by
  have hpos : 0 < s.pending ↔ ∃ p ∈ s.points, p = .backGroundCall ∨ p = .compact := by
    rw [pending, List.countP_pos_iff]
    refine exists_congr fun p => and_congr_right fun _ => ?_
    cases p <;> simp [Point.pending]
  unfold Coming
  rw [← hpos]
  cases s.db.immutableMemtable.isSome <;> simp
  exact Nat.succ_le_iff.symm

/-! ### What a step does -/

theorem pending_goto {t : ℕ} {p q : Point} (ht : s.points[t]? = some p)
    (hpq : q.pending = p.pending) : (s.goto t q).pending = s.pending :=
  countP_eq_of_map_eq (map_set_of_eq ht hpq)

theorem pending_push {t : ℕ} {update : WriteBatch} (ht : s.points[t]? = some (.write update)) :
    (s.push t update).pending = s.pending := by
  unfold Threads.push
  dsimp only
  split_ifs
  · exact pending_goto (s := { s with db := _, queue := _ }) ht rfl
  · exact pending_goto (s := { s with db := _, queue := _ }) ht rfl

/-- **What a step does to the compactions that are coming**: nothing, or it is a rotation, or it is
a compaction. -/
theorem Step.pending_cases (h : Step s e s') :
    (s'.pending = s.pending ∧ s'.db.immutableMemtable = s.db.immutableMemtable ∧
      (s'.db.backgroundCompactionSchedule = true → s.db.backgroundCompactionSchedule = true)) ∨
    (∃ t c, e = .run t c ∧ s.points[t]? = some .makeRoom ∧
      kMaxMemtableSize ≤ s.db.memtable.estimatedSize ∧ s.db.immutableMemtable = none ∧
      s'.pending = s.pending + (!s.db.backgroundCompactionSchedule).toNat ∧
      s'.db.immutableMemtable.isSome = true ∧
      s'.db.backgroundCompactionSchedule = s.db.backgroundCompactionSchedule) ∨
    ∃ t c r, e = .run t c ∧ s.points[t]? = some .compact ∧
      s.db.backGroundCompaction c.env = .ok (s'.db, r) ∧ s'.pending + 1 = s.pending := by
  cases h with
  | call _ => exact .inl ⟨by simp [pending, Point.pending], rfl, id⟩
  | wakeTurn ht => exact .inl ⟨pending_goto ht rfl, rfl, id⟩
  | wakeFinish ht => exact .inl ⟨pending_goto ht rfl, rfl, id⟩
  | write ht _ =>
    refine .inl ⟨pending_push ht, ?_⟩
    unfold Threads.push
    dsimp only
    split_ifs
    · exact ⟨rfl, id⟩
    · exact ⟨rfl, id⟩
  | relockTurn ht => exact .inl ⟨pending_goto ht rfl, rfl, id⟩
  | done ht => exact .inl ⟨pending_goto ht rfl, rfl, id⟩
  | turn ht => exact .inl ⟨pending_goto ht rfl, rfl, id⟩
  | room ht _ => exact .inl ⟨pending_goto ht rfl, rfl, id⟩
  | wait ht _ _ => exact .inl ⟨pending_goto ht rfl, rfl, id⟩
  | rotate ht hfull himm =>
    -- a new thread is among the points, unless the flag is set
    refine .inr (.inl ⟨_, _, rfl, ht, hfull, himm, ?_, by simp, by simp⟩)
    rw [pending, List.countP_append, List.countP_replicate, DBimpl.rotate_tasks]
    simp [pending, Point.pending]
  | relockFinish ht => exact .inl ⟨pending_goto ht rfl, rfl, id⟩
  | commit ht _ hcommit =>
    obtain ⟨_, _, _, hk⟩ := DBimpl.commit_frame hcommit
    refine .inl ⟨?_, by simp [finish, Threads.goto, notifyWriters, hk],
      by simp [finish, Threads.goto, notifyWriters, hk]⟩
    refine countP_eq_of_map_eq ?_
    simp only [finish, Threads.goto]
    rw [List.map_set, map_notifyWriters Point.pending_notifyTurn, ← List.map_set]
    exact map_set_of_eq ht rfl
  | backGroundCall ht _ => exact .inl ⟨pending_goto ht rfl, rfl, id⟩
  | compact ht hcomp =>
    refine .inr (.inr ⟨_, _, _, rfl, ht, hcomp, ?_⟩)
    exact countP_set_add (f := Point.pending) ht .notify
  | @notify t _ ht =>
    refine .inl ⟨?_, rfl, fun h => by cases h⟩
    refine countP_eq_of_map_eq ?_
    simp only [finish, Threads.goto]
    rw [List.map_set, List.map_map, ← show s.points.map Point.pending = s.points.map
      (Point.pending ∘ Point.notifyFinish) by simp [Function.comp_def], ← List.map_set]
    exact map_set_of_eq ht rfl

/-! ### The invariant -/

/-- At most one compaction is coming, none without an immutable memtable, and none as long as the
flag has its first value and that is true. -/
structure Bounded (s : Threads) : Prop where
  le : s.pending ≤ s.db.immutableMemtable.isSome.toNat
  idle : s.db.backgroundCompactionSchedule = true → s.pending = 0

theorem Bounded.immutable {t : ℕ} (h : s.Bounded) (ht : s.points[t]? = some .compact) :
    s.pending = 1 ∧ s.db.immutableMemtable.isSome = true := by
  have hpos : 0 < s.pending := List.countP_pos_iff.2 ⟨_, List.mem_of_getElem? ht, rfl⟩
  have hle := h.le
  cases himm : s.db.immutableMemtable.isSome with
  | false =>
    rw [himm, Bool.toNat_false] at hle
    omega
  | true =>
    rw [himm, Bool.toNat_true] at hle
    exact ⟨by omega, rfl⟩

theorem Bounded.step (h : s.Bounded) (hstep : Step s e s') : s'.Bounded := by
  rcases hstep.pending_cases with ⟨hp, himm, hflag⟩ |
    ⟨t, c, -, -, -, himm, hp, himm', hflag⟩ | ⟨t, c, r, -, ht, -, hp⟩
  · exact ⟨by rw [hp, himm]; exact h.le, fun hf => hp.trans (h.idle (hflag hf))⟩
  · have hle := h.le
    rw [himm, Option.isSome_none, Bool.toNat_false, Nat.le_zero] at hle
    refine ⟨?_, ?_⟩
    · rw [hp, hle, himm']
      cases s.db.backgroundCompactionSchedule <;> simp
    · intro hf
      rw [hp, hle, ← hflag, hf]
      rfl
  · have := (h.immutable ht).1
    exact ⟨by omega, fun _ => by omega⟩

/-- **A compaction stays on its way** in a step that does not drop it. -/
theorem Coming.step (h : s.Coming) (hb : s.Bounded) (hdrops : ¬ s.Drops e) (hstep : Step s e s') :
    s'.Coming := by
  rw [coming_iff] at h ⊢
  rcases hstep.pending_cases with ⟨hp, himm, -⟩ |
    ⟨t, c, rfl, ht, hfull, himm, hp, himm', -⟩ | ⟨t, c, r, rfl, ht, hcomp, hp⟩
  · rw [hp, himm]
    exact h
  · -- the flag is false, so the rotation starts a thread
    have hflag : s.db.backgroundCompactionSchedule = false := by
      by_contra hf
      exact hdrops (.inl ⟨ht, hfull, himm, by simpa using hf⟩)
    rw [hp, himm', hflag]
    simp
  · -- the compaction succeeds, so nothing is left to compact
    rcases DBimpl.backGroundCompaction_changes hcomp with ⟨hnone, -⟩ | ⟨-, r', _, _, rfl, hdb⟩
    · have := (hb.immutable ht).2
      rw [hnone] at this
      cases this
    · have hok : r'.status = .OK := by
        by_contra hne
        exact hdrops (.inr ⟨ht, _, r', hcomp, hne⟩)
      rw [hdb]
      simp [hok, Status.ok]

/-- A step that drops a compaction leaves an immutable memtable behind and nobody to compact it. -/
theorem Drops.not_coming (h : s.Drops e) (hb : s.Bounded) :
    ∃ s', s.step e = .ok s' ∧ ¬ s'.Coming := by
  cases e with
  | call ops => exact h.elim
  | wake t => exact h.elim
  | run t c =>
    rcases h with ⟨ht, hfull, himm, hflag⟩ | ⟨ht, db, r, hcomp, hne⟩
    · -- a rotation under the flag: no thread is started, and none was coming
      have hstep : s.step (.run t c) = .ok (s.makeRoomRound t c.size₀) := by
        simp only [step, ht]
      refine ⟨_, hstep, ?_⟩
      rw [coming_iff]
      have hp := hb.idle hflag
      simp only [makeRoomRound, not_lt.2 hfull, ↓reduceIte, himm, Option.isSome_none,
        Bool.false_eq_true, pending, List.countP_append, List.countP_replicate,
        DBimpl.rotate_tasks, hflag]
      unfold pending at hp
      simp [hp]
    · -- a failed `BuildTable`: the only compaction that was coming has been
      have hstep : s.step (.run t c) = .ok { s.goto t .notify with db } := by
        simp only [step, ht, hcomp, Exec.ok_bind, Exec.pure_eq]
      refine ⟨_, hstep, ?_⟩
      rw [coming_iff]
      have hp : _ + 1 = s.pending := countP_set_add (f := Point.pending) ht .notify
      obtain ⟨hone, himm⟩ := hb.immutable ht
      have hnone : ({ s.goto t .notify with db } : Threads).pending = 0 := by
        have : (s.points.set t .notify).countP Point.pending = 0 := by omega
        exact this
      have himm' : db.immutableMemtable.isSome = true := by
        rcases DBimpl.backGroundCompaction_changes hcomp with ⟨hn, -⟩ | ⟨-, r', _, _, hr, hdb⟩
        · rw [hn] at himm
          cases himm
        · obtain rfl := Option.some.inj hr
          rw [hdb]
          have : r.status.ok = false := by
            rw [← Bool.not_eq_true, Status.ok_eq_true_iff]
            exact hne
          simpa [this] using himm
      rw [hnone]
      change ¬ db.immutableMemtable.isSome.toNat ≤ 0
      rw [himm']
      decide

theorem bounded_start {u : Uninit} {manifest : Option Bytes} {db : DBimpl}
    (hdb : DBimpl.make u manifest = .ok db) : (start db).Bounded ∧ (start db).Coming := by
  obtain ⟨-, -, himm, -⟩ := DBimpl.make_frame hdb
  refine ⟨⟨by simp [pending, start], fun _ => rfl⟩, ?_⟩
  intro h
  change db.immutableMemtable.isSome = true at h
  rw [himm] at h
  cases h

end Threads

open Threads in
/-- **When a compaction is always coming.**  Whatever the constructor leaves in the flag and
whatever `BuildTable` returns: in every state along a run an immutable memtable has a compaction
coming if and only if no step of the run rotates the memtables while the flag is true, and none is
a compaction whose `BuildTable` fails. -/
theorem compaction_coming_iff {u : Uninit} {manifest : Option Bytes} {db : DBimpl}
    (hdb : DBimpl.make u manifest = .ok db) (es : List Event) :
    (∀ es₁, es₁ <+: es → ∀ s, Machine.run step (start db) es₁ = .ok s → s.Coming) ↔
      Machine.Along step (fun s e => ¬ s.Drops e) (start db) es := by
  obtain ⟨hbounded, hcoming⟩ := bounded_start hdb
  constructor
  · intro h
    apply Machine.along_iff.2
    intro es₁ e hpre s hs hdrops
    have hb : s.Bounded := Machine.Reachable.invariant (I := Bounded)
      (fun _ _ _ hs hstep => hs.step (.of_step hstep)) hbounded ⟨es₁, hs⟩
    obtain ⟨s', hstep, hno⟩ := hdrops.not_coming hb
    refine hno (h _ hpre s' (Machine.run_append_ok.2 ⟨s, hs, ?_⟩))
    exact Machine.run_cons_ok.2 ⟨s', hstep, rfl⟩
  · rintro h es₁ ⟨es₂, rfl⟩ s hs
    refine (Machine.run_invariant (I := fun s => s.Bounded ∧ s.Coming) ?_ ⟨hbounded, hcoming⟩
      (Machine.along_append.1 h).1 hs).2
    rintro s e s' ⟨hb, hc⟩ hdrops hstep
    exact ⟨hb.step (.of_step hstep), hc.step hb hdrops (.of_step hstep)⟩

/-- A database whose flag happens to be false, and three writers. -/
theorem compaction_coming_iff_three_writers :
    (∀ es₁, es₁ <+: threeWriters → ∀ s,
      Machine.run Threads.step (.start (.fresh ⟨0, false, 0⟩)) es₁ = .ok s → s.Coming) ↔
    Machine.Along Threads.step (fun s e => ¬ s.Drops e) (.start (.fresh ⟨0, false, 0⟩))
      threeWriters :=
  compaction_coming_iff (show DBimpl.make ⟨0, false, 0⟩ none = .ok (.fresh ⟨0, false, 0⟩) from rfl)
    threeWriters

/-- When the flag happens to be true, the second writer rotates the memtables and nobody is going
to compact the first one. -/
theorem compaction_not_scheduled :
    ¬ ∀ (u : Uninit) (manifest : Option Bytes) (db : DBimpl) (es : List Event) (s : Threads),
      DBimpl.make u manifest = .ok db → Machine.run Threads.step (.start db) es = .ok s →
        s.Coming := by
  intro h
  have hrun : (Machine.run Threads.step (.start (.fresh ⟨0, true, 0⟩)) threeWriters).map
      (fun s => (s.db.immutableMemtable.isSome, s.points)) =
      .ok (true, [.returned, .returned, .waitFinish]) := by
    decide +kernel
  obtain ⟨s, hs, hdata⟩ := Exec.exists_of_map hrun
  obtain ⟨himm, hpoints⟩ := Prod.mk.inj hdata
  obtain ⟨p, hp, hpending⟩ := h ⟨0, true, 0⟩ none _ _ s rfl hs himm
  rw [hpoints] at hp
  rcases hpending with rfl | rfl <;> exact absurd hp (by decide)

end KoishiDB
