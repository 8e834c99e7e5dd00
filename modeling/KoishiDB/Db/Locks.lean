import KoishiDB.Base.Lock
import KoishiDB.Base.Machine
import KoishiDB.Db.DBimpl

/-!
# The lock protocol of writers and compaction threads

Any number of threads in `Write` and in `BackGroundCall`, with the locks `rwlock_` and `cv_lock_`
and the condition variables.  A step is what one thread does up to the next point at which another
one can notice.  `wait` gives back the mutex it is given and no other; it can return without having
been notified.  `cv_lock_` is adopted and unlocked by threads that never locked it, so the model
only knows whether it is locked.

* `Step.of_step` : what a step can do.
* `excl_of_run` : `rwlock_` is held by the thread that is inside, and by no other.
* `never_blocks_iff` : the writers and the compaction threads block each other exactly in the runs
  in which a writer waits for the end of a compaction, that is, finds `memtable_` full while
  `immutable_memtable_` has not been compacted.
* `blocked_forever` : nothing changes the database any more once they do.
-/

namespace KoishiDB

/-- Where a thread is. -/
inductive Point where
  /-- `Write`, at the lock of `rwlock_`. -/
  | write (update : WriteBatch)
  /-- In `w.cv.wait`. -/
  | waitTurn
  /-- In `w.cv.wait`, woken up, with the value of `w.done`. -/
  | wakeTurn (done : Bool)
  /-- At `cv_lock_.unlock()`. -/
  | turn (done : Bool)
  /-- At the head of the loop of `MakeRoomForWrite`. -/
  | makeRoom
  /-- In `background_work_finish_signal_.wait`. -/
  | waitFinish
  /-- In `background_work_finish_signal_.wait`, woken up. -/
  | wakeFinish
  /-- `Write`, behind `MakeRoomForWrite`. -/
  | commit
  /-- `BackGroundCall`, at the lock of `rwlock_`. -/
  | backGroundCall
  /-- `BackGroundCall`, with the lock. -/
  | compact
  /-- `BackGroundCall`, behind `BackGroundCompaction`. -/
  | notify
  /-- At the end. -/
  | returned
deriving Repr, DecidableEq

namespace Point

/-- The thread holds `rwlock_`. -/
def holds : Point → Bool
  | write _ | backGroundCall | returned => false
  | _ => true

/-- The thread is going to send `background_work_finish_signal_`. -/
def canSignal : Point → Bool
  | backGroundCall | compact | notify => true
  | _ => false

/-- The thread is in the wait of `MakeRoomForWrite`. -/
def waiting : Point → Bool
  | waitFinish | wakeFinish => true
  | _ => false

/-- `w.cv.notify_one()`, with `w.done` set before if `done`. -/
def notifyTurn (done : Bool) : Point → Point
  | waitTurn => wakeTurn done
  | wakeTurn done' => wakeTurn (done || done')
  | p => p

/-- `background_work_finish_signal_.notify_all()`. -/
def notifyFinish : Point → Point
  | waitFinish => wakeFinish
  | p => p

@[simp] theorem holds_notifyTurn (done : Bool) (p : Point) :
    (p.notifyTurn done).holds = p.holds := by
  cases p <;> rfl

@[simp] theorem holds_notifyFinish (p : Point) : p.notifyFinish.holds = p.holds := by
  cases p <;> rfl

@[simp] theorem canSignal_notifyTurn (done : Bool) (p : Point) :
    (p.notifyTurn done).canSignal = p.canSignal := by
  cases p <;> rfl

@[simp] theorem canSignal_notifyFinish (p : Point) : p.notifyFinish.canSignal = p.canSignal := by
  cases p <;> rfl

@[simp] theorem waiting_notifyTurn (done : Bool) (p : Point) :
    (p.notifyTurn done).waiting = p.waiting := by
  cases p <;> rfl

@[simp] theorem waiting_notifyFinish (p : Point) : p.notifyFinish.waiting = p.waiting := by
  cases p <;> rfl

end Point

/-- The database, the locks and the threads. -/
structure Threads where
  db : DBimpl
  /-- The thread that holds `rwlock_`. -/
  rwlock : Option ℕ
  /-- `cv_lock_` is locked. -/
  cvLock : Bool
  /-- The threads of `writers_`, front first. -/
  queue : List ℕ
  points : List Point

/-- What the code does not decide: the size of a new memtable, the heights of new nodes, and the
outcome of file operations. -/
structure Choice where
  size₀ : ℕ
  heights : Heights
  env : BuildEnv

/-- What can happen next. -/
inductive Event where
  /-- A new thread calls `Write`. -/
  | call (ops : List WriteOp)
  /-- A `wait` returns that was not notified. -/
  | wake (t : ℕ)
  /-- The thread goes on. -/
  | run (t : ℕ) (c : Choice)

namespace Threads

/-- No thread has been started. -/
def start (db : DBimpl) : Threads := ⟨db, none, false, [], []⟩

/-- The thread moves to another point. -/
def goto (s : Threads) (t : ℕ) (p : Point) : Threads := { s with points := s.points.set t p }

/-- `rwlock_.lock()`. -/
def acquire (s : Threads) (t : ℕ) : Exec Threads :=
  if s.rwlock = none then .ok { s with rwlock := some t } else .error .blocked

/-- The end of `wait`, which locks `cv_lock_` again. -/
def relock (s : Threads) (t : ℕ) (p : Point) : Exec Threads :=
  if s.cvLock then .error .blocked else .ok { s.goto t p with cvLock := true }

/-- The start of a wait, which unlocks `cv_lock_`. -/
def await (s : Threads) (t : ℕ) (p : Point) : Threads := { s.goto t p with cvLock := false }

/-- The thread returns and gives `rwlock_` back. -/
def finish (s : Threads) (t : ℕ) : Threads := { s.goto t .returned with rwlock := none }

/-- `Write` with the lock, up to the wait for its turn. -/
def push (s : Threads) (t : ℕ) (update : WriteBatch) : Threads :=
  let s := { s with
    db := { s.db with writers := s.db.writers ++ [Writer.mk update false] }
    queue := s.queue ++ [t] }
  if s.queue.head? = some t then s.goto t (.turn false) else s.await t .waitTurn

/-- One round of the loop of `MakeRoomForWrite`. -/
def makeRoomRound (s : Threads) (t size₀ : ℕ) : Threads :=
  if s.db.memtable.estimatedSize < kMaxMemtableSize then s.goto t .commit
  else if s.db.immutableMemtable.isSome then s.await t .waitFinish
  else
    let db := s.db.rotate size₀
    { s with db, points := s.points ++ List.replicate (db.tasks - s.db.tasks) .backGroundCall }

/-- The notifications at the end of `Write`, for the writers that were popped and for the new front
of the queue. -/
def notifyWriters (s : Threads) (t : ℕ) (popped : List ℕ) : Threads :=
  { s with points := s.points.mapIdx fun u p =>
      if u ≠ t ∧ u ∈ popped then p.notifyTurn true
      else if s.queue.head? = some u then p.notifyTurn false
      else p }

/-- `Write` behind `MakeRoomForWrite`. -/
def commitGroup (s : Threads) (t : ℕ) (heights : Heights) : Exec Threads := do
  -- `DBimpl.commit` is for the writer at the front, and no other one gets here (`Inside`).
  if s.queue.head? ≠ some t then throw .blocked
  let c ← s.db.commit heights
  let n := c.popped.length
  let s' := { s with db := c.db, queue := s.queue.drop n }
  return (s'.notifyWriters t (s.queue.take n)).finish t

/-- The machine. -/
def step (s : Threads) : Event → Exec Threads
  | .call ops => do
    let update ← WriteBatch.build ops
    return { s with points := s.points ++ [.write update] }
  | .wake t =>
    match s.points[t]? with
    | some .waitTurn => .ok (s.goto t (.wakeTurn false))
    | some .waitFinish => .ok (s.goto t .wakeFinish)
    | _ => .error .blocked
  | .run t c =>
    match s.points[t]? with
    | some (.write update) => do
      let s ← s.acquire t
      return s.push t update
    | some (.wakeTurn done) => s.relock t (.turn done)
    | some (.turn done) =>
      let s := { s with cvLock := false }
      .ok (if done then s.finish t else s.goto t .makeRoom)
    | some .makeRoom => .ok (s.makeRoomRound t c.size₀)
    | some .wakeFinish => s.relock t .makeRoom
    | some .commit => s.commitGroup t c.heights
    | some .backGroundCall => do
      let s ← s.acquire t
      return s.goto t .compact
    | some .compact => do
      let (db, _) ← s.db.backGroundCompaction c.env
      return { s.goto t .notify with db }
    | some .notify =>
      .ok ({ s with
        db := { s.db with backgroundCompactionSchedule := false, tasks := s.db.tasks - 1 }
        points := s.points.map Point.notifyFinish }.finish t)
    | _ => .error .blocked

/-- **The threads block each other.**  A writer waits for `background_work_finish_signal_` with
`rwlock_` locked, and whoever could send the signal waits for `rwlock_`. -/
def Blocked (s : Threads) : Prop :=
  ∃ t, s.rwlock = some t ∧ s.points[t]? = some .waitFinish ∧
    ∀ p ∈ s.points, p.canSignal = true → p = .backGroundCall

/-- The thread is in `MakeRoomForWrite`, `memtable_` is full and `immutable_memtable_` is there. -/
def Waits (s : Threads) : Event → Prop
  | .run t _ => s.points[t]? = some .makeRoom ∧ kMaxMemtableSize ≤ s.db.memtable.estimatedSize ∧
      s.db.immutableMemtable.isSome = true
  | _ => False

/-! ### What a step can do -/

/-- The steps, one constructor for each thing that can happen. -/
inductive Step (s : Threads) : Event → Threads → Prop
  | call {ops : List WriteOp} {update : WriteBatch} (hbuild : WriteBatch.build ops = .ok update) :
      Step s (.call ops) { s with points := s.points ++ [.write update] }
  | wakeTurn {t : ℕ} (ht : s.points[t]? = some .waitTurn) :
      Step s (.wake t) (s.goto t (.wakeTurn false))
  | wakeFinish {t : ℕ} (ht : s.points[t]? = some .waitFinish) :
      Step s (.wake t) (s.goto t .wakeFinish)
  | write {t : ℕ} {c : Choice} {update : WriteBatch} (ht : s.points[t]? = some (.write update))
      (hfree : s.rwlock = none) : Step s (.run t c) ({ s with rwlock := some t }.push t update)
  | relockTurn {t : ℕ} {c : Choice} {done : Bool} (ht : s.points[t]? = some (.wakeTurn done)) :
      Step s (.run t c) { s.goto t (.turn done) with cvLock := true }
  | done {t : ℕ} {c : Choice} (ht : s.points[t]? = some (.turn true)) :
      Step s (.run t c) ({ s with cvLock := false }.finish t)
  | turn {t : ℕ} {c : Choice} (ht : s.points[t]? = some (.turn false)) :
      Step s (.run t c) ({ s with cvLock := false }.goto t .makeRoom)
  | room {t : ℕ} {c : Choice} (ht : s.points[t]? = some .makeRoom)
      (hroom : s.db.memtable.estimatedSize < kMaxMemtableSize) :
      Step s (.run t c) (s.goto t .commit)
  | wait {t : ℕ} {c : Choice} (ht : s.points[t]? = some .makeRoom)
      (hfull : kMaxMemtableSize ≤ s.db.memtable.estimatedSize)
      (himm : s.db.immutableMemtable.isSome = true) : Step s (.run t c) (s.await t .waitFinish)
  | rotate {t : ℕ} {c : Choice} (ht : s.points[t]? = some .makeRoom)
      (hfull : kMaxMemtableSize ≤ s.db.memtable.estimatedSize)
      (himm : s.db.immutableMemtable = none) :
      Step s (.run t c) { s with
        db := s.db.rotate c.size₀
        points := s.points ++
          List.replicate ((s.db.rotate c.size₀).tasks - s.db.tasks) .backGroundCall }
  | relockFinish {t : ℕ} {c : Choice} (ht : s.points[t]? = some .wakeFinish) :
      Step s (.run t c) { s.goto t .makeRoom with cvLock := true }
  | commit {t : ℕ} {c : Choice} {k : DBimpl.Commit} (ht : s.points[t]? = some .commit)
      (hfront : s.queue.head? = some t) (hcommit : s.db.commit c.heights = .ok k) :
      Step s (.run t c) ((notifyWriters { s with
        db := k.db
        queue := s.queue.drop k.popped.length } t (s.queue.take k.popped.length)).finish t)
  | backGroundCall {t : ℕ} {c : Choice} (ht : s.points[t]? = some .backGroundCall)
      (hfree : s.rwlock = none) : Step s (.run t c) ({ s with rwlock := some t }.goto t .compact)
  | compact {t : ℕ} {c : Choice} {db : DBimpl} {r : Option BuildResult}
      (ht : s.points[t]? = some .compact) (hcomp : s.db.backGroundCompaction c.env = .ok (db, r)) :
      Step s (.run t c) { s.goto t .notify with db }
  | notify {t : ℕ} {c : Choice} (ht : s.points[t]? = some .notify) :
      Step s (.run t c) ({ s with
        db := { s.db with backgroundCompactionSchedule := false, tasks := s.db.tasks - 1 }
        points := s.points.map Point.notifyFinish }.finish t)

variable {s s' : Threads} {e : Event}

theorem acquire_eq_ok {t : ℕ} : s.acquire t = .ok s' ↔
    s.rwlock = none ∧ s' = { s with rwlock := some t } := by
  unfold acquire
  split_ifs with hfree <;> simp [hfree, eq_comm]

theorem relock_eq_ok {t : ℕ} {p : Point} : s.relock t p = .ok s' ↔
    s.cvLock = false ∧ s' = { s.goto t p with cvLock := true } := by
  unfold relock
  split_ifs with hcv <;> simp [hcv, eq_comm]

theorem Step.of_makeRoom {t : ℕ} {c : Choice} (ht : s.points[t]? = some .makeRoom) :
    Step s (.run t c) (s.makeRoomRound t c.size₀) := by
  unfold makeRoomRound
  split_ifs with hroom himm
  · exact .room ht hroom
  · exact .wait ht (not_lt.1 hroom) himm
  · exact .rotate ht (not_lt.1 hroom) (by simpa using himm)

theorem Step.of_commit {t : ℕ} {c : Choice} (ht : s.points[t]? = some .commit)
    (h : s.commitGroup t c.heights = .ok s') : Step s (.run t c) s' := by
  unfold commitGroup at h
  split_ifs at h with hfront
  · cases h
  · obtain ⟨k, hk, h⟩ := Exec.bind_eq_ok.1 h
    cases h
    exact .commit ht (not_not.1 hfront) hk

/-- **What a step can do.** -/
theorem Step.of_step (h : s.step e = .ok s') : Step s e s' := by
  cases e with
  | call ops =>
    obtain ⟨update, hbuild, h⟩ := Exec.bind_eq_ok.1 h
    cases h
    exact .call hbuild
  | wake t =>
    simp only [step] at h
    split at h
    · rename_i ht
      cases h
      exact .wakeTurn ht
    · rename_i ht
      cases h
      exact .wakeFinish ht
    · cases h
  -- one case for each point at which the thread can stand
  | run t c =>
    simp only [step] at h
    split at h
    · rename_i update ht
      obtain ⟨s₁, hacq, h⟩ := Exec.bind_eq_ok.1 h
      obtain ⟨hfree, rfl⟩ := acquire_eq_ok.1 hacq
      cases h
      exact .write ht hfree
    · rename_i done ht
      obtain ⟨-, rfl⟩ := relock_eq_ok.1 h
      exact .relockTurn ht
    · rename_i done ht
      cases h
      cases done with
      | true => exact .done ht
      | false => exact .turn ht
    · rename_i ht
      cases h
      exact .of_makeRoom ht
    · rename_i ht
      obtain ⟨-, rfl⟩ := relock_eq_ok.1 h
      exact .relockFinish ht
    · rename_i ht
      exact .of_commit ht h
    · rename_i ht
      obtain ⟨s₁, hacq, h⟩ := Exec.bind_eq_ok.1 h
      obtain ⟨hfree, rfl⟩ := acquire_eq_ok.1 hacq
      cases h
      exact .backGroundCall ht hfree
    · rename_i ht
      obtain ⟨⟨db, r⟩, hcomp, h⟩ := Exec.bind_eq_ok.1 h
      cases h
      exact .compact ht hcomp
    · rename_i ht
      cases h
      exact .notify ht
    · cases h

/-! ### Mutual exclusion -/

/-- The notifications leave alone what does not tell waiting from having been woken. -/
theorem map_notifyWriters {f : Point → Bool} (hf : ∀ done p, f (Point.notifyTurn done p) = f p)
    (s : Threads) (t : ℕ) (popped : List ℕ) :
    (s.notifyWriters t popped).points.map f = s.points.map f := by
  apply List.ext_getElem?
  intro u
  simp only [notifyWriters, List.getElem?_map, List.getElem?_mapIdx, Option.map_map]
  congr 1
  funext p
  simp only [Function.comp]
  split_ifs <;> simp only [hf]

/-- `rwlock_` is held by the thread that is inside, and by no other. -/
def Excl (s : Threads) : Prop := Exclusive Point.holds s.rwlock s.points

theorem excl_start (db : DBimpl) : (start db).Excl := Exclusive.nil

theorem Excl.free (h : s.Excl) (hfree : s.rwlock = none) :
    Exclusive Point.holds none s.points := by
  rw [← hfree]
  exact h

theorem Excl.inside {t : ℕ} {p : Point} (h : s.Excl) (ht : s.points[t]? = some p)
    (hp : p.holds = true) : Exclusive Point.holds (some t) s.points := by
  rw [← h.lock_eq ht hp]
  exact h

theorem Excl.push {t : ℕ} {update : WriteBatch} (h : s.Excl)
    (ht : s.points[t]? = some (.write update)) (hfree : s.rwlock = none) :
    ({ s with rwlock := some t }.push t update).Excl := by
  unfold Threads.push
  dsimp only
  split_ifs
  · exact (h.free hfree).acquire ht rfl
  · exact (h.free hfree).acquire ht rfl

theorem Excl.step (h : s.Excl) (hstep : Step s e s') : s'.Excl := by
  cases hstep with
  | call _ => exact h.append (by simp [Point.holds])
  | wakeTurn ht => exact h.move ht rfl
  | wakeFinish ht => exact h.move ht rfl
  | write ht hfree => exact h.push ht hfree
  | relockTurn ht => exact h.move ht rfl
  | done ht => exact (h.inside ht rfl).release rfl
  | turn ht => exact h.move ht rfl
  | room ht _ => exact h.move ht rfl
  | wait ht _ _ => exact h.move ht rfl
  | rotate _ _ _ => exact h.append fun p hp => by rw [List.eq_of_mem_replicate hp]; rfl
  | relockFinish ht => exact h.move ht rfl
  | commit ht _ _ =>
    refine Exclusive.release (q := .returned) ((h.inside ht rfl).congr ?_) rfl
    exact map_notifyWriters Point.holds_notifyTurn ..
  | backGroundCall ht hfree =>
    exact (h.free hfree).acquire ht rfl
  | compact ht _ => exact h.move ht rfl
  | notify ht =>
    exact ((h.inside ht rfl).congr (by simp [Function.comp_def])).release rfl

/-- **Mutual exclusion**, in every run. -/
theorem excl_of_run {db : DBimpl} {es : List Event}
    (h : Machine.run step (start db) es = .ok s) : s.Excl :=
  Machine.Reachable.invariant (I := Excl) (fun _ _ _ hs hstep => hs.step (.of_step hstep))
    (excl_start db) ⟨es, h⟩

/-! ### When the threads block each other -/

/-- Nobody waits for the end of a compaction. -/
def NoWait (s : Threads) : Prop := ∀ p ∈ s.points, p.waiting = false

theorem NoWait.goto {t : ℕ} {p : Point} (h : s.NoWait) (hp : p.waiting = false) :
    (s.goto t p).NoWait := by
  intro q hq
  rcases List.mem_or_eq_of_mem_set hq with hq | rfl
  · exact h q hq
  · exact hp

theorem NoWait.append {new : List Point} (h : s.NoWait) (hnew : ∀ p ∈ new, p.waiting = false) :
    { s with points := s.points ++ new }.NoWait := by
  intro q hq
  rcases List.mem_append.1 hq with hq | hq
  · exact h q hq
  · exact hnew q hq

theorem NoWait.notifyWriters {t : ℕ} {popped : List ℕ} (h : s.NoWait) :
    (s.notifyWriters t popped).NoWait := by
  intro q hq
  obtain ⟨u, hu, rfl⟩ := List.mem_mapIdx.1 hq
  split_ifs <;> simp [h _ (List.getElem_mem hu)]

theorem NoWait.push {t : ℕ} {update : WriteBatch} (h : s.NoWait) :
    (s.push t update).NoWait := by
  unfold Threads.push
  dsimp only
  split_ifs
  · exact NoWait.goto h rfl
  · exact NoWait.goto h rfl

/-- Without the wait in `MakeRoomForWrite` nobody starts to wait. -/
theorem NoWait.step (h : s.NoWait) (hwaits : ¬ s.Waits e) (hstep : Step s e s') : s'.NoWait := by
  cases hstep with
  | call _ => exact h.append (by simp [Point.waiting])
  | wakeTurn _ => exact h.goto rfl
  | wakeFinish ht => exact absurd (h _ (List.mem_of_getElem? ht)) (by simp [Point.waiting])
  | write _ _ => exact NoWait.push h
  | relockTurn _ => exact h.goto rfl
  | done _ => exact h.goto rfl
  | turn _ => exact h.goto rfl
  | room _ _ => exact h.goto rfl
  | wait ht hfull himm => exact absurd ⟨ht, hfull, himm⟩ hwaits
  | rotate _ _ _ => exact h.append fun p hp => by rw [List.eq_of_mem_replicate hp]; rfl
  | relockFinish _ => exact h.goto rfl
  | commit _ _ _ => exact NoWait.goto (NoWait.notifyWriters h) rfl
  | backGroundCall _ _ => exact h.goto rfl
  | compact _ _ => exact h.goto rfl
  | notify _ =>
    refine NoWait.goto ?_ rfl
    intro q hq
    obtain ⟨p, hp, rfl⟩ := List.mem_map.1 hq
    rw [Point.waiting_notifyFinish, h p hp]

theorem step_of_waits {t : ℕ} {c : Choice} (h : s.Waits (.run t c)) :
    s.step (.run t c) = .ok (s.await t .waitFinish) := by
  obtain ⟨ht, hfull, himm⟩ := h
  simp only [step, ht, makeRoomRound, not_lt.2 hfull, himm, ↓reduceIte]

/-- Whoever waits in `MakeRoomForWrite` locks out those it waits for. -/
theorem Excl.blocked {t : ℕ} (h : s.Excl) (ht : s.points[t]? = some .makeRoom) :
    (s.await t .waitFinish).Blocked := by
  have hlt : t < s.points.length := (List.getElem?_eq_some_iff.1 ht).1
  refine ⟨t, h.lock_eq ht rfl, List.getElem?_set_self hlt, fun p hp hsig => ?_⟩
  obtain ⟨u, hu⟩ := List.mem_iff_getElem?.1 hp
  have hu' : (s.points.set t .waitFinish)[u]? = some p := hu
  rw [List.getElem?_set] at hu'
  split_ifs at hu' with heq
  · cases hu'
    cases hsig
  · have hout : p.holds = false := (h.inside ht rfl).outside hu' (Ne.symm heq)
    cases p <;> simp_all [Point.holds, Point.canSignal]

/-! ### No way out -/

/-- Thread `t` waits for room that nobody can make. -/
structure Stuck (t : ℕ) (s : Threads) : Prop where
  excl : s.Excl
  point : ∃ p, s.points[t]? = some p ∧ (p.waiting = true ∨ p = .makeRoom)
  full : kMaxMemtableSize ≤ s.db.memtable.estimatedSize
  immutable : s.db.immutableMemtable.isSome = true

theorem Stuck.rwlock {t : ℕ} (h : s.Stuck t) : s.rwlock = some t := by
  obtain ⟨p, hp, hwait⟩ := h.point
  refine h.excl.lock_eq hp ?_
  cases p <;> simp_all [Point.waiting, Point.holds]

/-- The only thread inside is the one that is stuck. -/
theorem Stuck.eq {t u : ℕ} {p : Point} (h : s.Stuck t) (hu : s.points[u]? = some p)
    (hp : p.holds = true) : u = t ∧ (p.waiting = true ∨ p = .makeRoom) := by
  have heq : u = t := Option.some.inj ((h.excl.lock_eq hu hp).symm.trans h.rwlock)
  subst heq
  obtain ⟨q, hq, hwait⟩ := h.point
  cases hu.symm.trans hq
  exact ⟨rfl, hwait⟩

theorem Stuck.goto {t : ℕ} {p : Point} (h : s.Stuck t) (hp : p.waiting = true ∨ p = .makeRoom)
    (hexcl : s'.Excl) (hpoints : s'.points = s.points.set t p) (hdb : s'.db = s.db) :
    s'.Stuck t := by
  obtain ⟨q, hq, -⟩ := h.point
  have hlt : t < s.points.length := (List.getElem?_eq_some_iff.1 hq).1
  exact ⟨hexcl, ⟨p, by rw [hpoints, List.getElem?_set_self hlt], hp⟩, hdb ▸ h.full,
    hdb ▸ h.immutable⟩

/-- A thread that is stuck stays so, and the database stays as it is. -/
theorem Stuck.step {t : ℕ} (h : s.Stuck t) (hstep : Step s e s') : s'.Stuck t ∧ s'.db = s.db := by
  have hexcl : s'.Excl := h.excl.step hstep
  -- Whoever is inside is the stuck thread, which goes round in its wait; nobody else gets in.
  cases hstep with
  | call _ =>
    obtain ⟨p, hp, hwait⟩ := h.point
    refine ⟨⟨hexcl, ⟨p, ?_, hwait⟩, h.full, h.immutable⟩, rfl⟩
    rw [List.getElem?_append_left (List.getElem?_eq_some_iff.1 hp).1]
    exact hp
  | wakeFinish ht =>
    obtain ⟨rfl, -⟩ := h.eq ht rfl
    exact ⟨h.goto (.inl rfl) hexcl rfl rfl, rfl⟩
  | wait ht _ _ =>
    obtain ⟨rfl, -⟩ := h.eq ht rfl
    exact ⟨h.goto (.inl rfl) hexcl rfl rfl, rfl⟩
  | relockFinish ht =>
    obtain ⟨rfl, -⟩ := h.eq ht rfl
    exact ⟨h.goto (.inr rfl) hexcl rfl rfl, rfl⟩
  | room _ hroom => exact absurd h.full (not_le.2 hroom)
  | rotate _ _ himm =>
    have := h.immutable
    rw [himm] at this
    cases this
  | write _ hfree => cases hfree.symm.trans h.rwlock
  | backGroundCall _ hfree => cases hfree.symm.trans h.rwlock
  | wakeTurn ht => simpa [Point.waiting] using (h.eq ht rfl).2
  | relockTurn ht => simpa [Point.waiting] using (h.eq ht rfl).2
  | done ht => simpa [Point.waiting] using (h.eq ht rfl).2
  | turn ht => simpa [Point.waiting] using (h.eq ht rfl).2
  | commit ht _ _ => simpa [Point.waiting] using (h.eq ht rfl).2
  | compact ht _ => simpa [Point.waiting] using (h.eq ht rfl).2
  | notify ht => simpa [Point.waiting] using (h.eq ht rfl).2

/-- Whoever starts to wait is stuck. -/
theorem Excl.stuck {t : ℕ} {c : Choice} (h : s.Excl) (hwaits : s.Waits (.run t c))
    (hstep : s.step (.run t c) = .ok s') : s'.Stuck t := by
  have hstuck : s.Stuck t := ⟨h, ⟨_, hwaits.1, .inr rfl⟩, hwaits.2.1, hwaits.2.2⟩
  exact (hstuck.step (.of_step hstep)).1

/-- In every run, nobody waits or somebody is stuck. -/
theorem noWait_or_stuck {db : DBimpl} {es : List Event}
    (h : Machine.run step (start db) es = .ok s) : s.NoWait ∨ ∃ t, s.Stuck t := by
  suffices hinv : s.Excl ∧ (s.NoWait ∨ ∃ t, s.Stuck t) from hinv.2
  refine Machine.Reachable.invariant (I := fun s => s.Excl ∧ (s.NoWait ∨ ∃ t, s.Stuck t)) ?_
    ⟨excl_start db, .inl (by simp [NoWait, start])⟩ ⟨es, h⟩
  rintro s e s' ⟨hexcl, hwait | ⟨t, hstuck⟩⟩ hstep
  · refine ⟨hexcl.step (.of_step hstep), ?_⟩
    by_cases hwaits : s.Waits e
    · cases e with
      | call ops => exact hwaits.elim
      | wake t => exact hwaits.elim
      | run t c => exact .inr ⟨t, hexcl.stuck hwaits hstep⟩
    · exact .inl (hwait.step hwaits (.of_step hstep))
  · exact ⟨hexcl.step (.of_step hstep), .inr ⟨t, (hstuck.step (.of_step hstep)).1⟩⟩

/-- **There is no way out.**  Once the threads block each other, `rwlock_` is never given back and
the database never changes. -/
theorem blocked_forever {db : DBimpl} {es es' : List Event}
    (hs : Machine.run step (start db) es = .ok s) (hblocked : s.Blocked)
    (hs' : Machine.run step s es' = .ok s') : s'.db = s.db ∧ s'.rwlock = s.rwlock := by
  obtain ⟨t, hlock, ht, -⟩ := hblocked
  rcases noWait_or_stuck hs with hno | ⟨u, hstuck⟩
  · exact absurd (hno _ (List.mem_of_getElem? ht)) (by simp [Point.waiting])
  · have hinv : s'.Stuck u ∧ s'.db = s.db :=
      Machine.Reachable.invariant (I := fun s' => s'.Stuck u ∧ s'.db = s.db)
        (fun _ _ _ h hstep => ⟨(h.1.step (.of_step hstep)).1,
          (h.1.step (.of_step hstep)).2.trans h.2⟩) ⟨hstuck, rfl⟩ ⟨es', hs'⟩
    exact ⟨hinv.2, hinv.1.rwlock.trans hstuck.rwlock.symm⟩

end Threads

open Threads in
/-- **When the lock protocol blocks on itself.**  In no state along a run do the threads block each
other if and only if no step of it is one of a writer that finds `memtable_` full and
`immutable_memtable_` still there. -/
theorem never_blocks_iff (db : DBimpl) (es : List Event) :
    (∀ es₁, es₁ <+: es → ∀ s, Machine.run step (start db) es₁ = .ok s → ¬ s.Blocked) ↔
      Machine.Along step (fun s e => ¬ s.Waits e) (start db) es := by
  constructor
  · intro h
    apply Machine.along_iff.2
    intro es₁ e hpre s hs hwaits
    cases e with
    | call ops => exact hwaits
    | wake t => exact hwaits
    | run t c =>
      refine h _ hpre _ (Machine.run_append_ok.2 ⟨s, hs, ?_⟩) ((excl_of_run hs).blocked hwaits.1)
      exact Machine.run_cons_ok.2 ⟨_, step_of_waits hwaits, rfl⟩
  · rintro h es₁ ⟨es₂, rfl⟩ s hs ⟨t, -, ht, -⟩
    have hnone : s.NoWait := Machine.run_invariant (I := NoWait)
      (fun _ _ _ hs hwaits hstep => hs.step hwaits (.of_step hstep)) (by simp [NoWait, start])
      (Machine.along_append.1 h).1 hs
    exact absurd (hnone _ (List.mem_of_getElem? ht)) (by simp [Point.waiting])

/-- Two writes that each fill a memtable, and a third one that comes before the compaction
thread. -/
def threeWriters : List Event :=
  let fill : List WriteOp := [.put [97] (List.replicate 4096 49)]
  let c : Choice := ⟨0, flatHeights, .accepting⟩
  [.call fill, .call fill, .call fill] ++
    List.replicate 4 (.run 0 c) ++ List.replicate 5 (.run 1 c) ++ List.replicate 3 (.run 2 c)

/-- The third writer waits for the compaction thread, which waits for `rwlock_`. -/
theorem never_blocks_fails_three_writers :
    ∃ s, Machine.run Threads.step (.start (.fresh ⟨0, false, 0⟩)) threeWriters = .ok s ∧
      .backGroundCall ∈ s.points ∧ s.Blocked := by
  have hrun : (Machine.run Threads.step (.start (.fresh ⟨0, false, 0⟩)) threeWriters).map
      (fun s => (s.rwlock, s.points)) =
      .ok (some 2, [.returned, .returned, .waitFinish, .backGroundCall]) := by
    decide +kernel
  obtain ⟨s, hs, hdata⟩ := Exec.exists_of_map hrun
  obtain ⟨hlock, hpoints⟩ := Prod.mk.inj hdata
  refine ⟨s, hs, ?_, 2, hlock, ?_, ?_⟩
  · simp [hpoints]
  · simp [hpoints]
  · simp [hpoints, Point.canSignal]

end KoishiDB
