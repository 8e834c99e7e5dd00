import KoishiDB.Base.Lock
import KoishiDB.Base.Population

/-!
# The thread pool of the server

`ThreadPool` with any number of workers, any number of threads in `enqueue` and the thread in the
destructor.  `queue_mutex` is a lock that one thread holds; `condition.wait` gives it back and takes
it again before it looks at its predicate once more.  `notify_one` and `notify_all` are called
behind the critical sections, so a step of another thread can come between a change of the queue and
its notification.  A `wait` can return without having been notified.

A task is run outside the lock.  An exception of a task stays in its `std::packaged_task`; a task
that calls `enqueue` itself is a thread of its own beside the worker that runs it.

* `Step.of_step` : what a step can do.
* `tasks_run_once` : every accepted task is started once, in the order of the queue, and none is
  lost.
* `waiting_tasks_have_no_idle_worker` : there is no lost wakeup.  When nobody can move but workers
  with a task, and the queue is not empty, every worker has a task.
* `steps_le` : nobody spins.  A run is no longer than a bound that is linear in the number of
  workers, calls and spurious wakeups.
* `destructor_waits_for_all_tasks` : a pool that is being destroyed gets stuck only when the
  destructor has returned, and then every accepted task has been run to its end.
-/

namespace KoishiDB

/-- Where a thread is. -/
inductive PoolThread (τ : Type) where
  /-- A worker at the lock of `queue_mutex`: at the head of its loop, or woken up in `wait`. -/
  | lock
  /-- A worker at the predicate of `wait`. -/
  | test
  /-- A worker in `condition.wait`. -/
  | asleep
  /-- A worker behind `wait`. -/
  | take
  /-- A worker that runs a task. -/
  | running (task : τ)
  /-- A worker that has returned. -/
  | exited
  /-- `enqueue`, at the lock of `queue_mutex`. -/
  | enqueue (task : τ)
  /-- `enqueue`, with the lock. -/
  | emplace (task : τ)
  /-- `enqueue`, at `condition.notify_one()`. -/
  | notifyOne (task : τ)
  /-- `enqueue` has returned. -/
  | returned (task : τ)
  /-- `enqueue` has thrown `std::runtime_error`. -/
  | threw (task : τ)
  /-- The destructor, at the lock of `queue_mutex`. -/
  | destroy
  /-- The destructor, with the lock. -/
  | setStop
  /-- The destructor, at `condition.notify_all()`. -/
  | notifyAll
  /-- The destructor, at the `join` of a worker. -/
  | join (worker : ℕ)
  /-- The destructor has returned. -/
  | destroyed
deriving Repr, DecidableEq

/-- What a thread is there for. -/
inductive PoolRole where
  | worker
  | caller
  | destructor
deriving Repr, DecidableEq

namespace PoolThread

variable {τ : Type}

/-- What the thread is there for. -/
def role : PoolThread τ → PoolRole
  | lock | test | asleep | take | running _ | exited => .worker
  | enqueue _ | emplace _ | notifyOne _ | returned _ | threw _ => .caller
  | destroy | setStop | notifyAll | join _ | destroyed => .destructor

/-- The thread holds `queue_mutex`. -/
def holds : PoolThread τ → Bool
  | test | take | emplace _ | setStop => true
  | _ => false

/-- The thread is in `condition.wait` and has not been woken. -/
def isAsleep : PoolThread τ → Bool
  | asleep => true
  | _ => false

/-- The thread is the one that destroys the pool. -/
def destroys (q : PoolThread τ) : Bool := q.role = .destructor

/-- `condition.notify_all()`. -/
def notify : PoolThread τ → PoolThread τ
  | asleep => lock
  | p => p

/-- The task a worker runs. -/
def task? : PoolThread τ → Option τ
  | running task => some task
  | _ => none

/-- The task of a call of `enqueue` that has put it into the queue. -/
def accepted? : PoolThread τ → Option τ
  | notifyOne task | returned task => some task
  | _ => none

end PoolThread

/-- The pool and the threads that use it. -/
structure ThreadPool (τ : Type) where
  /-- The number of workers. -/
  size : ℕ
  tasks : List τ
  stop : Bool
  /-- The thread that holds `queue_mutex`. -/
  queueMutex : Option ℕ
  /-- The workers and, behind them, everybody else. -/
  threads : List (PoolThread τ)
  /-- The tasks that were put into the queue, in this order. -/
  accepted : List τ
  /-- The tasks that a worker took from the queue, in this order. -/
  started : List τ
  /-- The tasks that have been run to their end. -/
  finished : List τ

/-- What can happen next. -/
inductive PoolEvent (τ : Type) where
  /-- A new thread calls `enqueue`. -/
  | enqueue (task : τ)
  /-- The destructor is called. -/
  | destroy
  /-- A `wait` returns that was not notified. -/
  | wake (i : ℕ)
  /-- The thread goes on.  If it is at `notify_one`, it wakes the worker `j`. -/
  | run (i j : ℕ)

namespace ThreadPool

variable {τ : Type}

/-- `ThreadPool::ThreadPool`: all workers start at the head of their loop. -/
def new (size : ℕ) : ThreadPool τ where
  size := size
  tasks := []
  stop := false
  queueMutex := none
  threads := List.replicate size .lock
  accepted := []
  started := []
  finished := []

/-- The thread moves to another point. -/
def goto (p : ThreadPool τ) (i : ℕ) (q : PoolThread τ) : ThreadPool τ :=
  { p with threads := p.threads.set i q }

/-- The thread locks `queue_mutex` and goes on. -/
def acquire (p : ThreadPool τ) (i : ℕ) (q : PoolThread τ) : Exec (ThreadPool τ) :=
  if p.queueMutex = none then .ok { p.goto i q with queueMutex := some i } else .error .blocked

/-- The thread leaves the scope of its `unique_lock`, or waits. -/
def leave (p : ThreadPool τ) (i : ℕ) (q : PoolThread τ) : ThreadPool τ :=
  { p.goto i q with queueMutex := none }

/-- The predicate of `wait`. -/
def ready (p : ThreadPool τ) : Bool := p.stop || !p.tasks.isEmpty

/-- A worker behind `wait`, to the end of the critical section. -/
def takeTask (p : ThreadPool τ) (i : ℕ) : Exec (ThreadPool τ) :=
  if p.stop && p.tasks.isEmpty then .ok (p.leave i .exited)
  else
    match p.tasks with
    -- `front` of an empty queue
    | [] => .error .outOfBounds
    | task :: tasks =>
      .ok { p.leave i (.running task) with tasks, started := p.started ++ [task] }

/-- `enqueue` with the lock. -/
def emplaceTask (p : ThreadPool τ) (i : ℕ) (task : τ) : ThreadPool τ :=
  if p.stop then p.leave i (.threw task)
  else { p.leave i (.notifyOne task) with
    tasks := p.tasks ++ [task]
    accepted := p.accepted ++ [task] }

/-- `condition.notify_one()` wakes one of the threads that wait, if there is one. -/
def notifyWorker (p : ThreadPool τ) (i j : ℕ) (task : τ) : Exec (ThreadPool τ) :=
  if p.threads.countP PoolThread.isAsleep = 0 then .ok (p.goto i (.returned task))
  else
    match p.threads[j]? with
    | some .asleep => .ok ((p.goto j .lock).goto i (.returned task))
    | _ => .error .blocked

/-- One round of the loop that joins the workers. -/
def joinWorker (p : ThreadPool τ) (i k : ℕ) : Exec (ThreadPool τ) :=
  if k < p.size then
    match p.threads[k]? with
    | some .exited => .ok (p.goto i (.join (k + 1)))
    | _ => .error .blocked
  else .ok (p.goto i .destroyed)

/-- The machine. -/
def step (p : ThreadPool τ) : PoolEvent τ → Exec (ThreadPool τ)
  | .enqueue task => .ok { p with threads := p.threads ++ [.enqueue task] }
  | .destroy =>
    -- a pool is destroyed once
    if p.threads.countP PoolThread.destroys = 0 then
      .ok { p with threads := p.threads ++ [.destroy] }
    else .error .nullptr
  | .wake i =>
    match p.threads[i]? with
    | some .asleep => .ok (p.goto i .lock)
    | _ => .error .blocked
  | .run i j =>
    match p.threads[i]? with
    | some .lock => p.acquire i .test
    | some .test => .ok (if p.ready then p.goto i .take else p.leave i .asleep)
    | some .take => p.takeTask i
    | some (.running task) => .ok { p.goto i .lock with finished := p.finished ++ [task] }
    | some (.enqueue task) => p.acquire i (.emplace task)
    | some (.emplace task) => .ok (p.emplaceTask i task)
    | some (.notifyOne task) => p.notifyWorker i j task
    | some .destroy => p.acquire i .setStop
    | some .setStop => .ok { p.leave i .notifyAll with stop := true }
    | some .notifyAll =>
      .ok ({ p with threads := p.threads.map PoolThread.notify }.goto i (.join 0))
    | some (.join k) => p.joinWorker i k
    | _ => .error .blocked

/-! ### What a step can do -/

/-- The steps, one constructor for each thing that can happen. -/
inductive Step (p : ThreadPool τ) : PoolEvent τ → ThreadPool τ → Prop
  | call {task : τ} : Step p (.enqueue task) { p with threads := p.threads ++ [.enqueue task] }
  | destroy (hnew : p.threads.countP PoolThread.destroys = 0) :
      Step p .destroy { p with threads := p.threads ++ [.destroy] }
  | wake {i : ℕ} (hi : p.threads[i]? = some .asleep) : Step p (.wake i) (p.goto i .lock)
  | lock {i j : ℕ} (hi : p.threads[i]? = some .lock) (hfree : p.queueMutex = none) :
      Step p (.run i j) { p.goto i .test with queueMutex := some i }
  | ready {i j : ℕ} (hi : p.threads[i]? = some .test) (hready : p.stop = true ∨ p.tasks ≠ []) :
      Step p (.run i j) (p.goto i .take)
  | sleep {i j : ℕ} (hi : p.threads[i]? = some .test) (hstop : p.stop = false)
      (htasks : p.tasks = []) : Step p (.run i j) (p.leave i .asleep)
  | exit {i j : ℕ} (hi : p.threads[i]? = some .take) (hstop : p.stop = true)
      (htasks : p.tasks = []) : Step p (.run i j) (p.leave i .exited)
  | take {i j : ℕ} {task : τ} {tasks : List τ} (hi : p.threads[i]? = some .take)
      (htasks : p.tasks = task :: tasks) :
      Step p (.run i j)
        { p.leave i (.running task) with tasks, started := p.started ++ [task] }
  | finish {i j : ℕ} {task : τ} (hi : p.threads[i]? = some (.running task)) :
      Step p (.run i j) { p.goto i .lock with finished := p.finished ++ [task] }
  | enqueue {i j : ℕ} {task : τ} (hi : p.threads[i]? = some (.enqueue task))
      (hfree : p.queueMutex = none) :
      Step p (.run i j) { p.goto i (.emplace task) with queueMutex := some i }
  | throws {i j : ℕ} {task : τ} (hi : p.threads[i]? = some (.emplace task))
      (hstop : p.stop = true) : Step p (.run i j) (p.leave i (.threw task))
  | emplace {i j : ℕ} {task : τ} (hi : p.threads[i]? = some (.emplace task))
      (hstop : p.stop = false) :
      Step p (.run i j) { p.leave i (.notifyOne task) with
        tasks := p.tasks ++ [task]
        accepted := p.accepted ++ [task] }
  | notifyNobody {i j : ℕ} {task : τ} (hi : p.threads[i]? = some (.notifyOne task))
      (hnone : p.threads.countP PoolThread.isAsleep = 0) :
      Step p (.run i j) (p.goto i (.returned task))
  | notifyOne {i j : ℕ} {task : τ} (hi : p.threads[i]? = some (.notifyOne task))
      (hj : p.threads[j]? = some .asleep) :
      Step p (.run i j) ((p.goto j .lock).goto i (.returned task))
  | lockDestroy {i j : ℕ} (hi : p.threads[i]? = some .destroy) (hfree : p.queueMutex = none) :
      Step p (.run i j) { p.goto i .setStop with queueMutex := some i }
  | setStop {i j : ℕ} (hi : p.threads[i]? = some .setStop) :
      Step p (.run i j) { p.leave i .notifyAll with stop := true }
  | notifyAll {i j : ℕ} (hi : p.threads[i]? = some .notifyAll) :
      Step p (.run i j) ({ p with threads := p.threads.map PoolThread.notify }.goto i (.join 0))
  | join {i j k : ℕ} (hi : p.threads[i]? = some (.join k)) (hk : k < p.size)
      (hexited : p.threads[k]? = some .exited) : Step p (.run i j) (p.goto i (.join (k + 1)))
  | joined {i j k : ℕ} (hi : p.threads[i]? = some (.join k)) (hk : p.size ≤ k) :
      Step p (.run i j) (p.goto i .destroyed)

variable {p p' : ThreadPool τ} {e : PoolEvent τ}

theorem acquire_eq_ok {i : ℕ} {q : PoolThread τ} : p.acquire i q = .ok p' ↔
    p.queueMutex = none ∧ p' = { p.goto i q with queueMutex := some i } := by
  unfold acquire
  split_ifs with hfree <;> simp [hfree, eq_comm]

theorem Step.of_test {i j : ℕ} (hi : p.threads[i]? = some .test) :
    Step p (.run i j) (if p.ready then p.goto i .take else p.leave i .asleep) := by
  split_ifs with hready
  · exact .ready hi (by simpa [ThreadPool.ready] using hready)
  · obtain ⟨hstop, htasks⟩ : p.stop = false ∧ p.tasks = [] := by
      simpa [ThreadPool.ready] using hready
    exact .sleep hi hstop htasks

theorem Step.of_take {i j : ℕ} (hi : p.threads[i]? = some .take)
    (h : p.takeTask i = .ok p') : Step p (.run i j) p' := by
  unfold takeTask at h
  split_ifs at h with hexit
  · cases h
    obtain ⟨hstop, htasks⟩ : p.stop = true ∧ p.tasks = [] := by simpa using hexit
    exact .exit hi hstop htasks
  · split at h
    · cases h
    · rename_i task tasks htasks
      cases h
      exact .take hi htasks

theorem Step.of_emplace {i j : ℕ} {task : τ} (hi : p.threads[i]? = some (.emplace task)) :
    Step p (.run i j) (p.emplaceTask i task) := by
  unfold emplaceTask
  split_ifs with hstop
  · exact .throws hi hstop
  · exact .emplace hi (by simpa using hstop)

theorem Step.of_notifyOne {i j : ℕ} {task : τ} (hi : p.threads[i]? = some (.notifyOne task))
    (h : p.notifyWorker i j task = .ok p') : Step p (.run i j) p' := by
  unfold notifyWorker at h
  split_ifs at h with hnone
  · cases h
    exact .notifyNobody hi hnone
  · split at h
    · rename_i hj
      cases h
      exact .notifyOne hi hj
    · cases h

theorem Step.of_join {i j k : ℕ} (hi : p.threads[i]? = some (.join k))
    (h : p.joinWorker i k = .ok p') : Step p (.run i j) p' := by
  unfold joinWorker at h
  split_ifs at h with hk
  · split at h
    · rename_i hexited
      cases h
      exact .join hi hk hexited
    · cases h
  · cases h
    exact .joined hi (Nat.not_lt.1 hk)

/-- **What a step can do.** -/
theorem Step.of_step (h : p.step e = .ok p') : Step p e p' := by
  cases e with
  | enqueue task =>
    cases h
    exact .call
  | destroy =>
    simp only [step] at h
    split_ifs at h with hnew
    cases h
    exact .destroy hnew
  | wake i =>
    simp only [step] at h
    split at h
    · rename_i hi
      cases h
      exact .wake hi
    · cases h
  -- one case for each point at which the thread can stand
  | run i j =>
    simp only [step] at h
    split at h
    · rename_i hi
      obtain ⟨hfree, rfl⟩ := acquire_eq_ok.1 h
      exact .lock hi hfree
    · rename_i hi
      cases h
      exact .of_test hi
    · rename_i hi
      exact .of_take hi h
    · rename_i task hi
      cases h
      exact .finish hi
    · rename_i task hi
      obtain ⟨hfree, rfl⟩ := acquire_eq_ok.1 h
      exact .enqueue hi hfree
    · rename_i task hi
      cases h
      exact .of_emplace hi
    · rename_i task hi
      exact .of_notifyOne hi h
    · rename_i hi
      obtain ⟨hfree, rfl⟩ := acquire_eq_ok.1 h
      exact .lockDestroy hi hfree
    · rename_i hi
      cases h
      exact .setStop hi
    · rename_i hi
      cases h
      exact .notifyAll hi
    · rename_i k hi
      exact .of_join hi h
    · cases h

/-! ### Who the threads are -/

theorem Step.size_eq (hstep : Step p e p') : p'.size = p.size := by
  cases hstep <;> rfl

/-- `notify_all` leaves alone whoever does not wait. -/
theorem getElem?_map_notify {threads : List (PoolThread τ)} {i : ℕ} {q : PoolThread τ}
    (hi : threads[i]? = some q) (hq : q.notify = q) :
    (threads.map PoolThread.notify)[i]? = some q := by
  rw [List.getElem?_map, hi, Option.map_some, hq]

@[simp] theorem role_notify (q : PoolThread τ) : q.notify.role = q.role := by
  cases q <;> rfl

/-- A thread keeps its role, and new threads come at the end. -/
theorem Step.roles (hstep : Step p e p') :
    p'.threads.map PoolThread.role = p.threads.map PoolThread.role ∨
    (∃ task, e = .enqueue task ∧ p'.threads = p.threads ++ [.enqueue task]) ∨
    (e = .destroy ∧ p.threads.countP PoolThread.destroys = 0 ∧
      p'.threads = p.threads ++ [.destroy]) := by
  cases hstep with
  | @call task => exact .inr (.inl ⟨task, rfl, rfl⟩)
  | destroy hnew => exact .inr (.inr ⟨rfl, hnew, rfl⟩)
  | wake hi => exact .inl (map_set_of_eq hi rfl)
  | lock hi _ => exact .inl (map_set_of_eq hi rfl)
  | ready hi _ => exact .inl (map_set_of_eq hi rfl)
  | sleep hi _ _ => exact .inl (map_set_of_eq hi rfl)
  | exit hi _ _ => exact .inl (map_set_of_eq hi rfl)
  | take hi _ => exact .inl (map_set_of_eq hi rfl)
  | finish hi => exact .inl (map_set_of_eq hi rfl)
  | enqueue hi _ => exact .inl (map_set_of_eq hi rfl)
  | throws hi _ => exact .inl (map_set_of_eq hi rfl)
  | emplace hi _ => exact .inl (map_set_of_eq hi rfl)
  | notifyNobody hi _ => exact .inl (map_set_of_eq hi rfl)
  | notifyOne hi hj =>
    left
    -- the caller is not the worker it wakes
    have hi' := getElem?_set_other hi hj (by simp) .lock
    have hj' : (p.threads.set _ .lock).map PoolThread.role = _ := map_set_of_eq hj rfl
    refine Eq.trans ?_ hj'
    exact map_set_of_eq hi' rfl
  | lockDestroy hi _ => exact .inl (map_set_of_eq hi rfl)
  | setStop hi => exact .inl (map_set_of_eq hi rfl)
  | notifyAll hi =>
    left
    have hi' := getElem?_map_notify hi rfl
    have hmap : (p.threads.map PoolThread.notify).map PoolThread.role =
        p.threads.map PoolThread.role := by
      simp [List.map_map, Function.comp_def]
    refine Eq.trans ?_ hmap
    exact map_set_of_eq hi' rfl
  | join hi _ _ => exact .inl (map_set_of_eq hi rfl)
  | joined hi _ => exact .inl (map_set_of_eq hi rfl)

/-- The workers are the first threads, and nobody else is a worker. -/
def Staffed (p : ThreadPool τ) : Prop :=
  ∃ others : List PoolRole, .worker ∉ others ∧
    p.threads.map PoolThread.role = List.replicate p.size .worker ++ others

theorem staffed_new (n : ℕ) : (new n : ThreadPool τ).Staffed :=
  ⟨[], List.not_mem_nil, by simp [new, PoolThread.role]⟩

theorem Staffed.step (h : p.Staffed) (hstep : Step p e p') : p'.Staffed := by
  obtain ⟨others, hothers, hroles⟩ := h
  unfold Staffed
  rw [hstep.size_eq]
  obtain heq | ⟨task, -, heq⟩ | ⟨-, -, heq⟩ := hstep.roles
  · exact ⟨others, hothers, heq.trans hroles⟩
  · exact ⟨others ++ [.caller], by simp [hothers], by
      rw [heq, List.map_append, hroles, List.append_assoc]
      rfl⟩
  · exact ⟨others ++ [.destructor], by simp [hothers], by
      rw [heq, List.map_append, hroles, List.append_assoc]
      rfl⟩

theorem Staffed.role_eq (h : p.Staffed) {i : ℕ} (hi : i < p.size) :
    ∃ q, p.threads[i]? = some q ∧ q.role = .worker := by
  obtain ⟨others, -, hroles⟩ := h
  have hget : (p.threads.map PoolThread.role)[i]? = some .worker := by
    rw [hroles, List.getElem?_append_left (by simpa using hi)]
    simp [hi]
  simpa using hget

theorem Staffed.lt_size (h : p.Staffed) {i : ℕ} {q : PoolThread τ} (hi : p.threads[i]? = some q)
    (hq : q.role = .worker) : i < p.size := by
  obtain ⟨others, hothers, hroles⟩ := h
  by_contra hle
  have hget : (p.threads.map PoolThread.role)[i]? = some .worker := by
    rw [List.getElem?_map, hi, Option.map_some, hq]
  rw [hroles, List.getElem?_append_right (by simpa using hle)] at hget
  exact hothers (List.mem_of_getElem? hget)

theorem Staffed.countP_asleep_le (h : p.Staffed) :
    p.threads.countP PoolThread.isAsleep ≤ p.size := by
  obtain ⟨others, hothers, hroles⟩ := h
  calc p.threads.countP PoolThread.isAsleep
      ≤ p.threads.countP fun q => q.role = .worker := by
        apply List.countP_mono_left
        intro q _ hq
        cases q <;> simp_all [PoolThread.isAsleep, PoolThread.role]
    _ = (p.threads.map PoolThread.role).countP (· = .worker) := by
        rw [List.countP_map]
        rfl
    _ = p.size := by
        rw [hroles, List.countP_append, List.countP_replicate,
          List.countP_eq_zero.2 fun r hr => by
            simpa using ne_of_mem_of_not_mem hr hothers]
        simp

/-! ### Mutual exclusion -/

/-- `queue_mutex` is held by the thread that is inside, and by no other. -/
def Excl (p : ThreadPool τ) : Prop := Exclusive PoolThread.holds p.queueMutex p.threads

theorem excl_new (n : ℕ) : (new n : ThreadPool τ).Excl := by
  have hnil : Exclusive PoolThread.holds none ([] : List (PoolThread τ)) := .nil
  exact hnil.append fun q hq => by rw [List.eq_of_mem_replicate hq]; rfl

theorem Excl.free (h : p.Excl) (hfree : p.queueMutex = none) :
    Exclusive PoolThread.holds none p.threads := by
  rw [← hfree]
  exact h

theorem Excl.inside {i : ℕ} {q : PoolThread τ} (h : p.Excl) (hi : p.threads[i]? = some q)
    (hq : q.holds = true) : Exclusive PoolThread.holds (some i) p.threads := by
  rw [← h.lock_eq hi hq]
  exact h

theorem Excl.step (h : p.Excl) (hstep : Step p e p') : p'.Excl := by
  cases hstep with
  | call => exact h.append (by simp [PoolThread.holds])
  | destroy _ => exact h.append (by simp [PoolThread.holds])
  | wake hi => exact h.move hi rfl
  | lock hi hfree => exact (h.free hfree).acquire hi rfl
  | ready hi _ => exact h.move hi rfl
  | sleep hi _ _ => exact (h.inside hi rfl).release rfl
  | exit hi _ _ => exact (h.inside hi rfl).release rfl
  | take hi _ => exact (h.inside hi rfl).release rfl
  | finish hi => exact h.move hi rfl
  | enqueue hi hfree => exact (h.free hfree).acquire hi rfl
  | throws hi _ => exact (h.inside hi rfl).release rfl
  | emplace hi _ => exact (h.inside hi rfl).release rfl
  | notifyNobody hi _ => exact h.move hi rfl
  | notifyOne hi hj =>
    have h' := Exclusive.move (q := .lock) h hj rfl
    exact h'.move (getElem?_set_other hi hj (by simp) .lock) rfl
  | lockDestroy hi hfree => exact (h.free hfree).acquire hi rfl
  | setStop hi => exact (h.inside hi rfl).release rfl
  | notifyAll hi =>
    refine Exclusive.move (h.congr ?_) (getElem?_map_notify hi rfl) rfl
    rw [List.map_map]
    apply List.map_congr_left
    intro q _
    cases q <;> rfl
  | join hi _ _ => exact h.move hi rfl
  | joined hi _ => exact h.move hi rfl

/-! ### The tasks -/

end ThreadPool

/-- Where the accepted tasks are. -/
structure TaskLedger {τ : Type} (accepted started tasks finished : List τ)
    (threads : List (PoolThread τ)) : Prop where
  /-- The queue is first in, first out. -/
  fifo : accepted = started ++ tasks
  /-- A task that was started is being run or has been run. -/
  ran : (finished ++ threads.filterMap PoolThread.task?).Perm started
  /-- The accepted tasks are those of the calls that did not throw. -/
  calls : (threads.filterMap PoolThread.accepted?).Perm accepted

namespace TaskLedger

variable {τ : Type} {accepted started tasks finished : List τ} {threads : List (PoolThread τ)}
  {i : ℕ} {a b : PoolThread τ} {task : τ}

/-- Only what the threads have to do with tasks matters. -/
theorem congr {threads' : List (PoolThread τ)}
    (h : TaskLedger accepted started tasks finished threads)
    (htask : threads'.filterMap PoolThread.task? = threads.filterMap PoolThread.task?)
    (hacc : threads'.filterMap PoolThread.accepted? = threads.filterMap PoolThread.accepted?) :
    TaskLedger accepted started tasks finished threads' where
  fifo := h.fifo
  ran := by rw [htask]; exact h.ran
  calls := by rw [hacc]; exact h.calls

/-- A thread moves that neither takes nor finishes nor brings a task. -/
theorem move (h : TaskLedger accepted started tasks finished threads)
    (hi : threads[i]? = some a) (htask : b.task? = a.task?) (hacc : b.accepted? = a.accepted?) :
    TaskLedger accepted started tasks finished (threads.set i b) :=
  h.congr (filterMap_set_of_eq hi htask) (filterMap_set_of_eq hi hacc)

theorem take (h : TaskLedger accepted started (task :: tasks) finished threads)
    (hi : threads[i]? = some .take) :
    TaskLedger accepted (started ++ [task]) tasks finished (threads.set i (.running task)) where
  fifo := by
    rw [List.append_assoc, List.singleton_append]
    exact h.fifo
  ran := by
    have hset := filterMap_set_perm (f := PoolThread.task?) hi (.running task)
    simp only [PoolThread.task?, Option.toList_none, List.append_nil, Option.toList_some] at hset
    have happ := hset.append_left finished
    rw [← List.append_assoc] at happ
    exact happ.trans (h.ran.append_right _)
  calls := by
    rw [filterMap_set_of_eq (f := PoolThread.accepted?) (b := .running task) hi rfl]
    exact h.calls

theorem finish (h : TaskLedger accepted started tasks finished threads)
    (hi : threads[i]? = some (.running task)) :
    TaskLedger accepted started tasks (finished ++ [task]) (threads.set i .lock) where
  fifo := h.fifo
  ran := by
    have hset := filterMap_set_perm (f := PoolThread.task?) hi .lock
    simp only [PoolThread.task?, Option.toList_none, List.append_nil, Option.toList_some] at hset
    have happ := (List.perm_append_comm.trans hset).append_left finished
    rw [← List.append_assoc] at happ
    exact happ.trans h.ran
  calls := by
    rw [filterMap_set_of_eq (f := PoolThread.accepted?) (b := .lock) hi rfl]
    exact h.calls

theorem emplace (h : TaskLedger accepted started tasks finished threads)
    (hi : threads[i]? = some (.emplace task)) :
    TaskLedger (accepted ++ [task]) started (tasks ++ [task]) finished
      (threads.set i (.notifyOne task)) where
  fifo := by rw [← List.append_assoc, ← h.fifo]
  ran := by
    rw [filterMap_set_of_eq (f := PoolThread.task?) (b := .notifyOne task) hi rfl]
    exact h.ran
  calls := by
    have hset := filterMap_set_perm (f := PoolThread.accepted?) hi (.notifyOne task)
    simp only [PoolThread.accepted?, Option.toList_none, List.append_nil,
      Option.toList_some] at hset
    exact hset.trans (h.calls.append_right _)

theorem append (h : TaskLedger accepted started tasks finished threads) (htask : a.task? = none)
    (hacc : a.accepted? = none) :
    TaskLedger accepted started tasks finished (threads ++ [a]) :=
  h.congr (by simp [htask]) (by simp [hacc])

theorem notify (h : TaskLedger accepted started tasks finished threads) :
    TaskLedger accepted started tasks finished (threads.map PoolThread.notify) := by
  have hcongr : ∀ f : PoolThread τ → Option τ, (∀ q, f q.notify = f q) →
      (threads.map PoolThread.notify).filterMap f = threads.filterMap f := by
    intro f hf
    rw [List.filterMap_map]
    congr 1
    funext q
    exact hf q
  exact h.congr (hcongr _ fun q => by cases q <;> rfl) (hcongr _ fun q => by cases q <;> rfl)

end TaskLedger

namespace ThreadPool

variable {τ : Type} {p p' : ThreadPool τ} {e : PoolEvent τ}

/-- Every accepted task is in one place. -/
def Ledger (p : ThreadPool τ) : Prop :=
  TaskLedger p.accepted p.started p.tasks p.finished p.threads

theorem ledger_new (n : ℕ) : (new n : ThreadPool τ).Ledger where
  fifo := rfl
  ran := by simp [new, List.filterMap_replicate, PoolThread.task?]
  calls := by simp [new, List.filterMap_replicate, PoolThread.accepted?]

theorem Ledger.step (h : p.Ledger) (hstep : Step p e p') : p'.Ledger := by
  cases hstep with
  | call => exact TaskLedger.append h rfl rfl
  | destroy _ => exact TaskLedger.append h rfl rfl
  | wake hi => exact TaskLedger.move h hi rfl rfl
  | lock hi _ => exact TaskLedger.move h hi rfl rfl
  | ready hi _ => exact TaskLedger.move h hi rfl rfl
  | sleep hi _ _ => exact TaskLedger.move h hi rfl rfl
  | exit hi _ _ => exact TaskLedger.move h hi rfl rfl
  | take hi htasks =>
    unfold Ledger at h
    rw [htasks] at h
    exact TaskLedger.take h hi
  | finish hi => exact TaskLedger.finish h hi
  | enqueue hi _ => exact TaskLedger.move h hi rfl rfl
  | throws hi _ => exact TaskLedger.move h hi rfl rfl
  | emplace hi _ => exact TaskLedger.emplace h hi
  | notifyNobody hi _ => exact TaskLedger.move h hi rfl rfl
  | notifyOne hi hj =>
    have h' := TaskLedger.move (b := .lock) h hj rfl rfl
    exact h'.move (getElem?_set_other hi hj (by simp) .lock) rfl rfl
  | lockDestroy hi _ => exact TaskLedger.move h hi rfl rfl
  | setStop hi => exact TaskLedger.move h hi rfl rfl
  | notifyAll hi => exact (TaskLedger.notify h).move (getElem?_map_notify hi rfl) rfl rfl
  | join hi _ _ => exact TaskLedger.move h hi rfl rfl
  | joined hi _ => exact TaskLedger.move h hi rfl rfl

/-! ### No wakeup is lost -/

end ThreadPool

namespace PoolThread

variable {τ : Type}

/-- The thread is on its way to the queue, or is going to send somebody there. -/
def coming : PoolThread τ → Bool
  | lock | test | take | notifyOne _ => true
  | _ => false

end PoolThread

/-- If a worker sleeps, somebody is coming for each of the `waiting` tasks. -/
def Covered {τ : Type} (waiting : ℕ) (threads : List (PoolThread τ)) : Prop :=
  threads.countP PoolThread.isAsleep = 0 ∨ waiting ≤ threads.countP PoolThread.coming

namespace Covered

variable {τ : Type} {waiting waiting' : ℕ} {threads : List (PoolThread τ)} {i : ℕ}
  {a b : PoolThread τ}

/-- A thread moves that does not go to sleep. -/
theorem move (h : Covered waiting threads) (hi : threads[i]? = some a) (hb : b.isAsleep = false)
    (hle : waiting' + a.coming.toNat ≤ waiting + b.coming.toNat) :
    Covered waiting' (threads.set i b) := by
  have hsleep := countP_set_add (f := PoolThread.isAsleep) hi b
  have hcoming := countP_set_add (f := PoolThread.coming) hi b
  rw [hb, Bool.toNat_false] at hsleep
  rcases h with h | h
  · left
    omega
  · right
    omega

theorem append (h : Covered waiting threads) (ha : a.isAsleep = false) :
    Covered waiting (threads ++ [a]) := by
  unfold Covered
  rw [List.countP_append, List.countP_append, List.countP_singleton, ha]
  rcases h with h | h
  · left
    simpa using h
  · right
    omega

theorem notify (waiting : ℕ) (threads : List (PoolThread τ)) :
    Covered waiting (threads.map PoolThread.notify) := by
  left
  rw [List.countP_map]
  apply List.countP_eq_zero.2
  intro q _
  cases q <;> simp [PoolThread.notify, PoolThread.isAsleep]

end Covered

namespace ThreadPool

variable {τ : Type} {p p' : ThreadPool τ} {e : PoolEvent τ}

theorem covered_new (n : ℕ) : Covered 0 (new n : ThreadPool τ).threads := .inr (Nat.zero_le _)

theorem Step.covered (h : Covered p.tasks.length p.threads) (hstep : Step p e p') :
    Covered p'.tasks.length p'.threads := by
  cases hstep with
  | call => exact h.append rfl
  | destroy _ => exact h.append rfl
  | wake hi => exact h.move hi rfl (Nat.le_succ _)
  | lock hi _ => exact h.move hi rfl (Nat.le_refl _)
  | ready hi _ => exact h.move hi rfl (Nat.le_refl _)
  -- whoever goes to sleep has seen that the queue is empty
  | sleep hi _ htasks =>
    right
    simp [leave, goto, htasks]
  | exit hi _ htasks =>
    right
    simp [leave, goto, htasks]
  | take hi htasks =>
    rw [htasks] at h
    exact h.move hi rfl (by simp [PoolThread.coming])
  | finish hi => exact h.move hi rfl (Nat.le_succ _)
  | enqueue hi _ => exact h.move hi rfl (Nat.le_refl _)
  | throws hi _ => exact h.move hi rfl (Nat.le_refl _)
  | emplace hi _ => exact h.move hi rfl (by simp [PoolThread.coming])
  | @notifyNobody i j task hi hnone =>
    -- nobody is asleep, so the notification is not needed
    have hsleep := countP_set_add (f := PoolThread.isAsleep) hi (.returned task)
    simp only [PoolThread.isAsleep, Bool.toNat_false] at hsleep
    left
    exact hsleep.trans hnone
  | notifyOne hi hj =>
    -- the worker it wakes comes in the place of the caller
    have h' : Covered (p.tasks.length + 1) (p.threads.set _ .lock) :=
      h.move hj rfl (Nat.le_refl _)
    exact h'.move (getElem?_set_other hi hj (by simp) .lock) rfl (Nat.le_refl _)
  | lockDestroy hi _ => exact h.move hi rfl (Nat.le_refl _)
  | setStop hi => exact h.move hi rfl (Nat.le_refl _)
  | notifyAll hi => exact (Covered.notify _ _).move (getElem?_map_notify hi rfl) rfl (Nat.le_refl _)
  | join hi _ _ => exact h.move hi rfl (Nat.le_refl _)
  | joined hi _ => exact h.move hi rfl (Nat.le_refl _)

/-! ### The end of the pool -/

end ThreadPool

namespace PoolThread

variable {τ : Type}

/-- The destructor has set `stop`. -/
def stopped : PoolThread τ → Bool
  | notifyAll | join _ | destroyed => true
  | _ => false

/-- How many of `size` workers the destructor has joined. -/
def joined (size : ℕ) : PoolThread τ → ℕ
  | join k => k
  | destroyed => size
  | _ => 0

end PoolThread

namespace ThreadPool

variable {τ : Type} {p p' : ThreadPool τ} {e : PoolEvent τ}

/-- What is known when a thread comes to a point, in the states `p` before and `p'` after the
step. -/
def Enters (p p' : ThreadPool τ) : PoolThread τ → Prop
  | .asleep => p'.stop = false
  | .take => p'.stop = true ∨ p'.tasks ≠ []
  | .exited => p'.stop = true ∧ p'.tasks = []
  | .notifyAll => p'.stop = true
  | .join 0 => .notifyAll ∈ p.threads
  | .join (k + 1) => .join k ∈ p.threads ∧ p.threads[k]? = some .exited
  | .destroyed => ∃ k, .join k ∈ p.threads ∧ p.size ≤ k
  | _ => True

/-- A thread is where it was before, or has come there in this step. -/
theorem Step.enters (hstep : Step p e p') {q : PoolThread τ} (hq : q ∈ p'.threads) :
    q ∈ p.threads ∨ Enters p p' q := by
  have hset : ∀ {i : ℕ} {b : PoolThread τ}, q ∈ p.threads.set i b → Enters p p' b →
      q ∈ p.threads ∨ Enters p p' q := by
    intro i b hmem hb
    obtain hmem | rfl := List.mem_or_eq_of_mem_set hmem
    · exact .inl hmem
    · exact .inr hb
  have happend : ∀ {b : PoolThread τ}, q ∈ p.threads ++ [b] → Enters p p' b →
      q ∈ p.threads ∨ Enters p p' q := by
    intro b hmem hb
    obtain hmem | hmem := List.mem_append.1 hmem
    · exact .inl hmem
    · rw [List.mem_singleton.1 hmem]
      exact .inr hb
  cases hstep with
  | call => exact happend hq trivial
  | destroy _ => exact happend hq trivial
  | wake _ => exact hset hq trivial
  | lock _ _ => exact hset hq trivial
  | ready _ hready => exact hset hq hready
  | sleep _ hstop _ => exact hset hq hstop
  | exit _ hstop htasks => exact hset hq ⟨hstop, htasks⟩
  | take _ _ => exact hset hq trivial
  | finish _ => exact hset hq trivial
  | enqueue _ _ => exact hset hq trivial
  | throws _ _ => exact hset hq trivial
  | emplace _ _ => exact hset hq trivial
  | notifyNobody _ _ => exact hset hq trivial
  | @notifyOne i j task _ _ =>
    obtain hmem | rfl := List.mem_or_eq_of_mem_set hq
    · exact hset (i := j) (b := .lock) hmem trivial
    · exact .inr trivial
  | lockDestroy _ _ => exact hset hq trivial
  | setStop _ => exact hset hq rfl
  | notifyAll hi =>
    obtain hmem | rfl := List.mem_or_eq_of_mem_set hq
    · obtain ⟨r, hr, rfl⟩ := List.mem_map.1 hmem
      cases r with
      | asleep => exact .inr trivial
      | _ => exact .inl hr
    · exact .inr (List.mem_of_getElem? hi)
  | join hi _ hexited => exact hset hq ⟨List.mem_of_getElem? hi, hexited⟩
  | joined hi hk => exact hset hq ⟨_, List.mem_of_getElem? hi, hk⟩

/-- A thread that does not sleep stays where it is until it moves itself. -/
theorem Step.stays (hstep : Step p e p') {u : ℕ} {q : PoolThread τ} (hu : p.threads[u]? = some q)
    (hq : q.notify = q) : p'.threads[u]? = some q ∨ ∃ j, e = .run u j := by
  have hset : ∀ {threads : List (PoolThread τ)} {i j : ℕ} (b : PoolThread τ),
      threads[u]? = some q → e = .run i j →
      (threads.set i b)[u]? = some q ∨ ∃ j, e = .run u j := by
    intro threads i j b hu he
    by_cases hui : i = u
    · exact .inr ⟨j, hui ▸ he⟩
    · exact .inl (by rw [List.getElem?_set_ne hui, hu])
  have hwake : ∀ {j : ℕ}, p.threads[j]? = some .asleep → (p.threads.set j .lock)[u]? = some q := by
    intro j hj
    refine getElem?_set_other hu hj ?_ _
    rintro rfl
    cases hq
  have happend : ∀ b : PoolThread τ, (p.threads ++ [b])[u]? = some q := by
    intro b
    rw [List.getElem?_append_left (List.getElem?_eq_some_iff.1 hu).1, hu]
  cases hstep with
  | call => exact .inl (happend _)
  | destroy _ => exact .inl (happend _)
  | wake hi => exact .inl (hwake hi)
  | lock _ _ => exact hset _ hu rfl
  | ready _ _ => exact hset _ hu rfl
  | sleep _ _ _ => exact hset _ hu rfl
  | exit _ _ _ => exact hset _ hu rfl
  | take _ _ => exact hset _ hu rfl
  | finish _ => exact hset _ hu rfl
  | enqueue _ _ => exact hset _ hu rfl
  | throws _ _ => exact hset _ hu rfl
  | emplace _ _ => exact hset _ hu rfl
  | notifyNobody _ _ => exact hset _ hu rfl
  | notifyOne _ hj => exact hset _ (hwake hj) rfl
  | lockDestroy _ _ => exact hset _ hu rfl
  | setStop _ => exact hset _ hu rfl
  | notifyAll _ => exact hset _ (getElem?_map_notify hu hq) rfl
  | join _ _ _ => exact hset _ hu rfl
  | joined _ _ => exact hset _ hu rfl

theorem Step.exited_stays (hstep : Step p e p') {u : ℕ} (hu : p.threads[u]? = some .exited) :
    p'.threads[u]? = some .exited := by
  obtain hu' | ⟨j, rfl⟩ := hstep.stays hu rfl
  · exact hu'
  · cases hstep <;> simp_all

theorem Step.stop_mono (hstep : Step p e p') (hstop : p.stop = true) : p'.stop = true := by
  cases hstep <;> first | exact hstop | rfl

/-- A stopped pool with an empty queue remains one. -/
theorem Step.over (hstep : Step p e p') (h : p.stop = true ∧ p.tasks = []) :
    p'.stop = true ∧ p'.tasks = [] := by
  obtain ⟨hstop, htasks⟩ := h
  cases hstep with
  | take _ hcons => rw [htasks] at hcons; cases hcons
  | emplace _ hstop' => rw [hstop] at hstop'; cases hstop'
  | setStop _ => exact ⟨rfl, htasks⟩
  | _ => exact ⟨hstop, htasks⟩

/-- How a pool comes to its end. -/
structure Ending (p : ThreadPool τ) : Prop where
  /-- A worker behind `wait` has something to do. -/
  ready : .take ∈ p.threads → p.stop = true ∨ p.tasks ≠ []
  /-- A worker returns when there is nothing left to do. -/
  exited : .exited ∈ p.threads → p.stop = true ∧ p.tasks = []
  stopped : ∀ q ∈ p.threads, q.stopped = true → p.stop = true
  /-- After `stop` has been set, whoever sleeps is going to be woken. -/
  asleep : p.stop = true → .asleep ∈ p.threads → .notifyAll ∈ p.threads
  joined : ∀ q ∈ p.threads, ∀ w < q.joined p.size, p.threads[w]? = some .exited

theorem ending_new (n : ℕ) : (new n : ThreadPool τ).Ending where
  ready h := by simp [new] at h
  exited h := by simp [new] at h
  stopped q hq := by rw [List.eq_of_mem_replicate hq]; exact nofun
  asleep h := by simp [new] at h
  joined q hq := by rw [List.eq_of_mem_replicate hq]; exact nofun

/-- A worker behind `wait` still has something to do: whoever takes something away from it would
have to hold the lock at the same time. -/
theorem Ending.ready_step (h : p.Ending) (hexcl : p.Excl) (hstep : Step p e p')
    (hmem : .take ∈ p'.threads) : p'.stop = true ∨ p'.tasks ≠ [] := by
  obtain hmem' | henter := hstep.enters hmem
  · have hready := h.ready hmem'
    cases hstep with
    | @take i j task tasks hi htasks =>
      obtain ⟨u, hu⟩ := List.getElem?_of_mem hmem
      have hne : u ≠ i := by
        rintro rfl
        simp [leave, goto, (List.getElem?_eq_some_iff.1 hi).1] at hu
      have hu' : p.threads[u]? = some .take := by
        simpa [leave, goto, List.getElem?_set_ne hne.symm] using hu
      exact absurd ((hexcl.inside hi rfl).outside hu' hne) nofun
    | emplace _ _ => exact .inr (by simp)
    | setStop _ => exact .inl rfl
    | _ => exact hready
  · exact henter

theorem Ending.exited_step (h : p.Ending) (hstep : Step p e p') (hmem : .exited ∈ p'.threads) :
    p'.stop = true ∧ p'.tasks = [] := by
  obtain hmem | henter := hstep.enters hmem
  · exact hstep.over (h.exited hmem)
  · exact henter

theorem Ending.stopped_step (h : p.Ending) (hstep : Step p e p') {q : PoolThread τ}
    (hmem : q ∈ p'.threads) (hq : q.stopped = true) : p'.stop = true := by
  obtain hmem | henter := hstep.enters hmem
  · exact hstep.stop_mono (h.stopped q hmem hq)
  · cases q with
    | notifyAll => exact henter
    | join k =>
      apply hstep.stop_mono
      cases k with
      | zero => exact h.stopped _ henter rfl
      | succ k => exact h.stopped _ henter.1 rfl
    | destroyed =>
      obtain ⟨k, hk, -⟩ := henter
      exact hstep.stop_mono (h.stopped _ hk rfl)
    | _ => cases hq

/-- Nobody sleeps behind `notify_all`. -/
theorem asleep_not_mem_map_notify (threads : List (PoolThread τ)) :
    .asleep ∉ threads.map PoolThread.notify := by
  intro hmem
  obtain ⟨q, -, hq⟩ := List.mem_map.1 hmem
  cases q <;> cases hq

theorem Ending.asleep_step (h : p.Ending) (hstep : Step p e p') (hstop : p'.stop = true)
    (hmem : .asleep ∈ p'.threads) : .notifyAll ∈ p'.threads := by
  obtain hold | henter := hstep.enters hmem
  · -- the thread that is going to notify is there already, or has just set `stop`
    have hold' : p.stop = true → .notifyAll ∈ p.threads := fun hp => h.asleep hp hold
    have hstay : .notifyAll ∈ p.threads → .notifyAll ∈ p'.threads := by
      intro hmem'
      obtain ⟨u, hu⟩ := List.getElem?_of_mem hmem'
      obtain hu' | ⟨j, rfl⟩ := hstep.stays hu rfl
      · exact List.mem_of_getElem? hu'
      · cases hstep with
        | notifyAll _ =>
          have hnot := (List.mem_or_eq_of_mem_set hmem).resolve_right (by simp)
          exact absurd hnot (asleep_not_mem_map_notify _)
        | _ => simp_all
    cases hstep with
    | setStop hi => exact List.mem_set (List.getElem?_eq_some_iff.1 hi).1 _
    | _ => exact hstay (hold' hstop)
  · exact absurd (hstop.symm.trans henter) (by simp)

theorem Ending.joined_step (h : p.Ending) (hstep : Step p e p') {q : PoolThread τ}
    (hmem : q ∈ p'.threads) {w : ℕ} (hw : w < q.joined p'.size) :
    p'.threads[w]? = some .exited := by
  rw [hstep.size_eq] at hw
  apply hstep.exited_stays
  obtain hmem | henter := hstep.enters hmem
  · exact h.joined q hmem w hw
  · cases q with
    | join k =>
      cases k with
      | zero => cases hw
      | succ k =>
        obtain ⟨hk, hexited⟩ := henter
        obtain hlt | rfl := Nat.lt_succ_iff_lt_or_eq.1 hw
        · exact h.joined _ hk w hlt
        · exact hexited
    | destroyed =>
      obtain ⟨k, hk, hle⟩ := henter
      exact h.joined _ hk w (Nat.lt_of_lt_of_le hw hle)
    | _ => cases hw

theorem Ending.step (h : p.Ending) (hexcl : p.Excl) (hstep : Step p e p') : p'.Ending where
  ready := h.ready_step hexcl hstep
  exited := h.exited_step hstep
  stopped _ hq hstopped := h.stopped_step hstep hq hstopped
  asleep := h.asleep_step hstep
  joined _ hq _ hw := h.joined_step hstep hq hw

/-! ### Whole runs -/

/-- What holds in every state of a pool of `n` workers. -/
structure Inv (n : ℕ) (p : ThreadPool τ) : Prop where
  size_eq : p.size = n
  staffed : p.Staffed
  excl : p.Excl
  ledger : p.Ledger
  covered : Covered p.tasks.length p.threads
  ending : p.Ending

theorem inv_new (n : ℕ) : Inv n (new n : ThreadPool τ) where
  size_eq := rfl
  staffed := staffed_new n
  excl := excl_new n
  ledger := ledger_new n
  covered := covered_new n
  ending := ending_new n

theorem Inv.step {n : ℕ} (h : Inv n p) (hstep : Step p e p') : Inv n p' where
  size_eq := hstep.size_eq.trans h.size_eq
  staffed := h.staffed.step hstep
  excl := h.excl.step hstep
  ledger := h.ledger.step hstep
  covered := hstep.covered h.covered
  ending := h.ending.step h.excl hstep

theorem inv_of_reachable {n : ℕ} (h : Machine.Reachable step (new n) p) : Inv n p :=
  h.invariant (fun _ _ _ hinv hstep => hinv.step (.of_step hstep)) (inv_new n)

/-- **Every accepted task is run once.**  In whatever order the threads move, the tasks that were
taken from the queue and those still in it are the accepted ones in their order; each task that was
taken is being run by one worker or has been run to its end; and the accepted tasks are those of the
calls that did not throw. -/
theorem tasks_run_once {n : ℕ} (h : Machine.Reachable step (new n) p) :
    p.started ++ p.tasks = p.accepted ∧
    (p.finished ++ p.threads.filterMap PoolThread.task?).Perm p.started ∧
    (p.threads.filterMap PoolThread.accepted?).Perm p.accepted := by
  have hledger := (inv_of_reachable h).ledger
  exact ⟨hledger.fifo.symm, hledger.ran, hledger.calls⟩

/-- A run of a pool of one worker: two tasks are put into the queue and the first one is started. -/
def traceBusy : List (PoolEvent ℕ) :=
  [.enqueue 7, .enqueue 8, .run 1 0, .run 1 0, .run 1 0, .run 2 0, .run 2 0, .run 2 0,
    .run 0 0, .run 0 0, .run 0 0]

theorem tasks_run_once_busy :
    ∃ p : ThreadPool ℕ, p.started = [7] ∧ p.tasks = [8] ∧ p.started ++ p.tasks = p.accepted ∧
      (p.finished ++ p.threads.filterMap PoolThread.task?).Perm p.started ∧
      (p.threads.filterMap PoolThread.accepted?).Perm p.accepted :=
  ⟨_, rfl, rfl, tasks_run_once (n := 1) ⟨traceBusy, rfl⟩⟩

/-! ### Who can move -/

end ThreadPool

namespace PoolThread

variable {τ : Type}

/-- The thread waits for nothing but the lock. -/
def moves : PoolThread τ → Bool
  | lock | test | take | enqueue _ | emplace _ | notifyOne _ | destroy | setStop | notifyAll => true
  | _ => false

end PoolThread

namespace ThreadPool

variable {τ : Type} {p p' : ThreadPool τ} {e : PoolEvent τ}

/-- Nobody can move but workers with a task. -/
def Quiet (p : ThreadPool τ) : Prop :=
  ∀ i j p', p.step (.run i j) = .ok p' → ∃ task, p.threads[i]? = some (.running task)

theorem Ending.takeTask_ok (h : p.Ending) {i : ℕ} (hi : p.threads[i]? = some .take) :
    ∃ p', p.takeTask i = .ok p' := by
  unfold takeTask
  split_ifs with hexit
  · exact ⟨_, rfl⟩
  · cases htasks : p.tasks with
    | cons task tasks => exact ⟨_, rfl⟩
    | nil =>
      obtain hstop | hne := h.ready (List.mem_of_getElem? hi)
      · simp [hstop, htasks] at hexit
      · exact absurd htasks hne

theorem notifyWorker_ok (p : ThreadPool τ) (i : ℕ) (task : τ) :
    ∃ j p', p.notifyWorker i j task = .ok p' := by
  unfold notifyWorker
  split_ifs with hnone
  · exact ⟨0, _, rfl⟩
  · obtain ⟨q, hq, hsleep⟩ := List.countP_pos_iff.1 (Nat.pos_of_ne_zero hnone)
    obtain ⟨j, hj⟩ := List.getElem?_of_mem hq
    cases q with
    | asleep => exact ⟨j, by simp [hj]⟩
    | _ => cases hsleep

/-- Whoever is not waiting for another thread can move when it has the lock, or when the lock is
free. -/
theorem Ending.can_move (h : p.Ending) {i : ℕ} {q : PoolThread τ} (hi : p.threads[i]? = some q)
    (hq : q.moves = true) (hlock : q.holds = true ∨ p.queueMutex = none) :
    ∃ j p', p.step (.run i j) = .ok p' := by
  have hacq : ∀ b : PoolThread τ, q.holds = false → ∃ p', p.acquire i b = .ok p' := by
    intro b hnot
    have hfree : p.queueMutex = none := by simpa [hnot] using hlock
    exact ⟨_, acquire_eq_ok.2 ⟨hfree, rfl⟩⟩
  simp only [ThreadPool.step, hi]
  cases q with
  | lock => exact ⟨0, hacq _ rfl⟩
  | test => exact ⟨0, _, rfl⟩
  | take => exact ⟨0, h.takeTask_ok hi⟩
  | enqueue task => exact ⟨0, hacq _ rfl⟩
  | emplace task => exact ⟨0, _, rfl⟩
  | notifyOne task => exact notifyWorker_ok p i task
  | destroy => exact ⟨0, hacq _ rfl⟩
  | setStop => exact ⟨0, _, rfl⟩
  | notifyAll => exact ⟨0, _, rfl⟩
  | _ => cases hq

/-- The lock keeps nobody from moving for ever. -/
theorem Quiet.moves_eq {n : ℕ} (hquiet : p.Quiet) (h : Inv n p) {i : ℕ} {q : PoolThread τ}
    (hi : p.threads[i]? = some q) : q.moves = false := by
  have hbusy : ∀ {u : ℕ} {r : PoolThread τ}, p.threads[u]? = some r → r.moves = true →
      ¬(r.holds = true ∨ p.queueMutex = none) := by
    intro u r hu hr hlock
    obtain ⟨j, p', hstep⟩ := h.ending.can_move hu hr hlock
    obtain ⟨task, htask⟩ := hquiet u j p' hstep
    rw [hu] at htask
    cases htask
    cases hr
  cases hmutex : p.queueMutex with
  | none =>
    cases hq : q.moves with
    | false => rfl
    | true => exact absurd (.inr hmutex) (hbusy hi hq)
  | some u =>
    -- the thread that holds the lock can move
    have hholds := (h.excl u).1 hmutex
    rw [List.getElem?_map] at hholds
    obtain ⟨r, hr, hr'⟩ := Option.map_eq_some_iff.1 hholds
    refine absurd (.inl hr') (hbusy hr ?_)
    cases r <;> first | rfl | cases hr'

/-- **No wakeup is lost.**  When nobody can move but workers with a task, a task waits in the queue
only if every worker has one. -/
theorem waiting_tasks_have_no_idle_worker {n : ℕ} (h : Machine.Reachable step (new n) p)
    (hquiet : p.Quiet) (htasks : p.tasks ≠ []) {i : ℕ} (hi : i < n) :
    ∃ task, p.threads[i]? = some (.running task) := by
  have hinv := inv_of_reachable h
  obtain ⟨q, hq, hrole⟩ := hinv.staffed.role_eq (hinv.size_eq ▸ hi)
  have hmoves := hquiet.moves_eq hinv hq
  -- nobody is coming to the queue
  have hcoming : p.threads.countP PoolThread.coming = 0 := by
    apply List.countP_eq_zero.2
    intro r hr hcoming
    obtain ⟨u, hu⟩ := List.getElem?_of_mem hr
    have hmoves := hquiet.moves_eq hinv hu
    cases r <;> simp_all [PoolThread.coming, PoolThread.moves]
  have hasleep : p.threads.countP PoolThread.isAsleep = 0 := by
    obtain hasleep | hle := hinv.covered
    · exact hasleep
    · rw [hcoming, Nat.le_zero, List.length_eq_zero_iff] at hle
      exact absurd hle htasks
  cases q with
  | running task => exact ⟨task, hq⟩
  | asleep => exact absurd rfl (List.countP_eq_zero.1 hasleep _ (List.mem_of_getElem? hq))
  | exited => exact absurd (hinv.ending.exited (List.mem_of_getElem? hq)).2 htasks
  | lock | test | take => cases hmoves
  | _ => cases hrole

theorem waiting_tasks_have_no_idle_worker_busy :
    ∃ p : ThreadPool ℕ, p.tasks = [8] ∧ ∃ task, p.threads[0]? = some (.running task) := by
  refine ⟨_, rfl, waiting_tasks_have_no_idle_worker (n := 1) ⟨traceBusy, rfl⟩ ?_ (by simp)
    Nat.one_pos⟩
  intro i j p' hstep
  obtain _ | _ | _ | i := i
  · exact ⟨7, rfl⟩
  · cases hstep
  · cases hstep
  · cases hstep

/-! ### How long a run is -/

end ThreadPool

namespace PoolThread

variable {τ : Type}

/-- How many steps a thread can bring about, its own and those of the workers it wakes. -/
def weight (size : ℕ) : PoolThread τ → ℕ
  | take => 1
  | test => 2
  | lock => 3
  | running _ => 4
  | notifyOne _ => 4
  | emplace _ => 9
  | enqueue _ => 10
  | join k => size - k + 1
  | notifyAll => 4 * size + 2
  | setStop => 4 * size + 3
  | destroy => 4 * size + 4
  | asleep | exited | returned _ | threw _ | destroyed => 0

end PoolThread

namespace PoolEvent

variable {τ : Type}

def isEnqueue : PoolEvent τ → Bool
  | enqueue _ => true
  | _ => false

def isWake : PoolEvent τ → Bool
  | wake _ => true
  | _ => false

/-- What an event from outside adds to the steps that can follow. -/
def cost : PoolEvent τ → ℕ
  | enqueue _ => 11
  | wake _ => 4
  | _ => 0

theorem sum_map_cost (es : List (PoolEvent τ)) :
    (es.map cost).sum = 11 * es.countP isEnqueue + 4 * es.countP isWake := by
  induction es with
  | nil => rfl
  | cons e es ih =>
    rw [List.map_cons, List.sum_cons, ih, List.countP_cons, List.countP_cons]
    cases e <;> simp [cost, isEnqueue, isWake] <;> omega

end PoolEvent

namespace ThreadPool

variable {τ : Type} {p p' : ThreadPool τ} {e : PoolEvent τ}

/-- The steps of the destructor that has not been called yet. -/
def reserve (p : ThreadPool τ) : ℕ :=
  if p.threads.countP PoolThread.destroys = 0 then 4 * p.size + 5 else 0

/-- How many steps can follow if nothing comes from outside. -/
def measure (p : ThreadPool τ) : ℕ :=
  (p.threads.map (PoolThread.weight p.size)).sum + 4 * p.tasks.length + p.reserve

theorem countP_destroys (threads : List (PoolThread τ)) :
    threads.countP PoolThread.destroys =
      (threads.map PoolThread.role).countP (· = PoolRole.destructor) := by
  rw [List.countP_map]
  rfl

theorem Step.reserve_eq (hstep : Step p e p') (he : e ≠ .destroy) : p'.reserve = p.reserve := by
  unfold reserve
  rw [hstep.size_eq, countP_destroys, countP_destroys]
  obtain heq | ⟨task, -, heq⟩ | ⟨hdestroy, -, -⟩ := hstep.roles
  · rw [heq]
  · rw [heq, List.map_append, List.countP_append]
    rfl
  · exact absurd hdestroy he

/-- A thread moves to a point of less weight, the tasks it takes or brings included. -/
theorem measure_move {i c : ℕ} {a b : PoolThread τ} (hi : p.threads[i]? = some a)
    (hthreads : p'.threads = p.threads.set i b) (hsize : p'.size = p.size)
    (hreserve : p'.reserve = p.reserve)
    (hlt : b.weight p.size + 4 * p'.tasks.length < a.weight p.size + 4 * p.tasks.length + c) :
    p'.measure + 1 ≤ p.measure + c := by
  have hsum := sum_map_set_add (f := PoolThread.weight p.size) hi b
  unfold measure
  rw [hthreads, hsize, hreserve]
  omega

theorem measure_self {i c : ℕ} {a b : PoolThread τ} (hi : p.threads[i]? = some a)
    (hthreads : p'.threads = p.threads.set i b) (hsize : p'.size = p.size)
    (htasks : p'.tasks = p.tasks) (hreserve : p'.reserve = p.reserve)
    (hlt : b.weight p.size < a.weight p.size) : p'.measure + 1 ≤ p.measure + c := by
  apply measure_move hi hthreads hsize hreserve
  rw [htasks]
  omega

/-- Every worker that `notify_all` wakes has three steps before it. -/
theorem sum_weight_notify (threads : List (PoolThread τ)) (size : ℕ) :
    ((threads.map PoolThread.notify).map (PoolThread.weight size)).sum =
      (threads.map (PoolThread.weight size)).sum + 3 * threads.countP PoolThread.isAsleep := by
  induction threads with
  | nil => rfl
  | cons q threads ih =>
    simp only [List.map_cons, List.sum_cons, List.countP_cons, ih]
    cases q <;> simp [PoolThread.notify, PoolThread.weight, PoolThread.isAsleep] <;> omega

/-- **Every step uses something up.** -/
theorem Step.measure_lt (hstep : Step p e p') (hstaffed : p.Staffed) :
    p'.measure + 1 ≤ p.measure + e.cost := by
  have hreserve := hstep.reserve_eq
  cases hstep with
  | call =>
    unfold measure
    rw [hreserve nofun]
    simp only [List.map_append, List.map_cons, List.map_nil, List.sum_append, List.sum_cons,
      List.sum_nil, PoolThread.weight, PoolEvent.cost]
    omega
  | destroy hnew =>
    unfold measure reserve
    simp [hnew, PoolThread.destroys, PoolThread.role, PoolThread.weight, PoolEvent.cost]
    omega
  | wake hi =>
    refine measure_move hi rfl rfl (hreserve nofun) ?_
    simp only [goto, PoolThread.weight, PoolEvent.cost]
    omega
  | lock hi _ => exact measure_self hi rfl rfl rfl (hreserve nofun) (by simp [PoolThread.weight])
  | ready hi _ => exact measure_self hi rfl rfl rfl (hreserve nofun) (by simp [PoolThread.weight])
  | sleep hi _ _ => exact measure_self hi rfl rfl rfl (hreserve nofun) (by simp [PoolThread.weight])
  | exit hi _ _ => exact measure_self hi rfl rfl rfl (hreserve nofun) (by simp [PoolThread.weight])
  | take hi htasks =>
    refine measure_move hi rfl rfl (hreserve nofun) ?_
    rw [htasks]
    simp only [PoolThread.weight, List.length_cons]
    omega
  | finish hi => exact measure_self hi rfl rfl rfl (hreserve nofun) (by simp [PoolThread.weight])
  | enqueue hi _ => exact measure_self hi rfl rfl rfl (hreserve nofun) (by simp [PoolThread.weight])
  | throws hi _ => exact measure_self hi rfl rfl rfl (hreserve nofun) (by simp [PoolThread.weight])
  | emplace hi _ =>
    refine measure_move hi rfl rfl (hreserve nofun) ?_
    simp only [PoolThread.weight, List.length_append, List.length_singleton]
    omega
  | notifyNobody hi _ =>
    exact measure_self hi rfl rfl rfl (hreserve nofun) (by simp [PoolThread.weight])
  | @notifyOne i j task hi hj =>
    -- the worker it wakes is paid for by the caller
    have hwake := sum_map_set_add (f := PoolThread.weight p.size) hj .lock
    have hsum := sum_map_set_add (f := PoolThread.weight p.size)
      (getElem?_set_other hi hj (by simp) .lock) (.returned task)
    unfold measure
    rw [hreserve nofun]
    simp only [goto, PoolThread.weight] at hwake hsum ⊢
    omega
  | lockDestroy hi _ =>
    exact measure_self hi rfl rfl rfl (hreserve nofun) (by simp [PoolThread.weight])
  | setStop hi => exact measure_self hi rfl rfl rfl (hreserve nofun) (by simp [PoolThread.weight])
  | notifyAll hi =>
    -- the destructor pays for all workers
    have hle := hstaffed.countP_asleep_le
    have hnotify := sum_weight_notify p.threads p.size
    have hsum := sum_map_set_add (f := PoolThread.weight p.size) (getElem?_map_notify hi rfl)
      (.join 0)
    unfold measure
    rw [hreserve nofun]
    simp only [goto, PoolThread.weight] at hnotify hsum ⊢
    omega
  | join hi hk _ =>
    refine measure_self hi rfl rfl rfl (hreserve nofun) ?_
    simp only [PoolThread.weight]
    omega
  | joined hi _ => exact measure_self hi rfl rfl rfl (hreserve nofun) (by simp [PoolThread.weight])

theorem measure_new (n : ℕ) : (new n : ThreadPool τ).measure = 7 * n + 5 := by
  have hdestroys : (List.replicate n (.lock : PoolThread τ)).countP PoolThread.destroys = 0 := by
    rw [List.countP_replicate]
    rfl
  simp only [measure, reserve, new, hdestroys, List.map_replicate,
    List.sum_replicate_nat, PoolThread.weight, List.length_nil, if_true]
  omega

/-- **Nobody spins.**  A run of a pool of `n` workers has at most `7 n + 5` steps, `11` more for
each call of `enqueue` and `4` for each spurious wakeup. -/
theorem steps_le {n : ℕ} {es : List (PoolEvent τ)} (h : Machine.run step (new n) es = .ok p) :
    es.length ≤ 7 * n + 5 + 11 * es.countP PoolEvent.isEnqueue +
      4 * es.countP PoolEvent.isWake := by
  have hbound := Machine.run_length_le (C := fun _ _ => True) (I := Inv n)
    (m := measure) (c := PoolEvent.cost)
    (fun p e p' hinv _ hstep =>
      ⟨hinv.step (.of_step hstep), (Step.of_step hstep).measure_lt hinv.staffed⟩)
    (inv_new n) (Machine.along_true _ _) h
  rw [measure_new, PoolEvent.sum_map_cost] at hbound
  omega

theorem steps_le_busy : ∃ p : ThreadPool ℕ, Machine.run step (new 1) traceBusy = .ok p ∧
    traceBusy.length ≤ 7 * 1 + 5 + 11 * traceBusy.countP PoolEvent.isEnqueue +
      4 * traceBusy.countP PoolEvent.isWake :=
  ⟨_, rfl, steps_le (n := 1) (p := _) rfl⟩

/-! ### The destructor -/

/-- The destructor can be waiting only for a worker that can move. -/
theorem Inv.join_ok {n i k : ℕ} (h : Inv n p) (hi : p.threads[i]? = some (.join k))
    (hexited : ∀ w < n, p.threads[w]? = some .exited) : ∃ p', p.step (.run i 0) = .ok p' := by
  simp only [ThreadPool.step, hi, joinWorker]
  split_ifs with hk
  · rw [hexited k (h.size_eq ▸ hk)]
    exact ⟨_, rfl⟩
  · exact ⟨_, rfl⟩

/-- When nobody can move, the destructor is at its end, or has not been called. -/
theorem Inv.destroyed_of_stuck {n : ℕ} (h : Inv n p)
    (hstuck : ∀ i j p', p.step (.run i j) ≠ .ok p') {q : PoolThread τ} (hq : q ∈ p.threads)
    (hrole : q.role = .destructor) : q = .destroyed := by
  have hquiet : p.Quiet := fun i j p' hstep => absurd hstep (hstuck i j p')
  obtain ⟨i, hi⟩ := List.getElem?_of_mem hq
  have hmoves := hquiet.moves_eq h hi
  have hexited : q.stopped = true → ∀ w < n, p.threads[w]? = some .exited := by
    intro hstopped w hw
    have hstop := h.ending.stopped q hq hstopped
    obtain ⟨r, hr, hrole'⟩ := h.staffed.role_eq (h.size_eq ▸ hw)
    have hmoves' := hquiet.moves_eq h hr
    cases r with
    | exited => exact hr
    | running task =>
      have hfinish : ∃ p', p.step (.run w 0) = .ok p' := by
        simp only [ThreadPool.step, hr]
        exact ⟨_, rfl⟩
      obtain ⟨p', hstep⟩ := hfinish
      exact absurd hstep (hstuck w 0 p')
    | asleep =>
      -- whoever sleeps is going to be woken
      have hnotify := h.ending.asleep hstop (List.mem_of_getElem? hr)
      obtain ⟨u, hu⟩ := List.getElem?_of_mem hnotify
      cases hquiet.moves_eq h hu
    | lock | test | take => cases hmoves'
    | _ => cases hrole'
  cases q with
  | destroyed => rfl
  | join k =>
    obtain ⟨p', hstep⟩ := h.join_ok hi (hexited rfl)
    exact absurd hstep (hstuck i 0 p')
  | destroy | setStop | notifyAll => cases hmoves
  | _ => cases hrole

/-- **The destructor waits for all tasks, and it returns.**  As long as the destructor has been
called and has not returned, somebody can move.  When it has returned, every worker has, the queue
is empty, and every accepted task has been run to its end. -/
theorem destructor_waits_for_all_tasks {n : ℕ} (hn : 0 < n)
    (h : Machine.Reachable step (new n) p) :
    (.destroyed ∉ p.threads → p.threads.countP PoolThread.destroys ≠ 0 →
      ∃ i j p', p.step (.run i j) = .ok p') ∧
    (.destroyed ∈ p.threads → (∀ i < n, p.threads[i]? = some .exited) ∧ p.tasks = [] ∧
      p.finished.Perm p.accepted) := by
  have hinv := inv_of_reachable h
  constructor
  · intro hnot hcalled
    by_contra hstuck
    push Not at hstuck
    obtain ⟨q, hq, hdestroys⟩ := List.countP_pos_iff.1 (Nat.pos_of_ne_zero hcalled)
    have hrole : q.role = .destructor := by simpa [PoolThread.destroys] using hdestroys
    exact hnot (hinv.destroyed_of_stuck hstuck hq hrole ▸ hq)
  · intro hdestroyed
    have hexited : ∀ i < n, p.threads[i]? = some .exited := by
      intro i hi
      exact hinv.ending.joined _ hdestroyed i (hinv.size_eq ▸ hi)
    have htasks := (hinv.ending.exited (List.mem_of_getElem? (hexited 0 hn))).2
    refine ⟨hexited, htasks, ?_⟩
    -- nobody runs a task any more
    have hidle : p.threads.filterMap PoolThread.task? = [] := by
      apply List.filterMap_eq_nil_iff.2
      intro q hq
      cases q with
      | running task =>
        obtain ⟨i, hi⟩ := List.getElem?_of_mem hq
        have hlt := hinv.staffed.lt_size hi rfl
        have hexit := hexited i (hinv.size_eq ▸ hlt)
        rw [hi] at hexit
        cases hexit
      | _ => rfl
    have hran := hinv.ledger.ran
    rw [hidle, List.append_nil] at hran
    have hfifo := hinv.ledger.fifo
    rw [htasks, List.append_nil] at hfifo
    exact hfifo ▸ hran

/-- The run goes on: the destructor is called, and the worker runs both tasks and returns. -/
def traceDestroyed : List (PoolEvent ℕ) :=
  traceBusy ++ [.destroy, .run 3 0, .run 3 0, .run 3 0, .run 0 0, .run 0 0, .run 0 0, .run 0 0,
    .run 0 0, .run 0 0, .run 0 0, .run 0 0, .run 3 0, .run 3 0]

theorem destructor_waits_for_all_tasks_destroyed : ∃ p : ThreadPool ℕ, .destroyed ∈ p.threads ∧
    (∀ i < 1, p.threads[i]? = some .exited) ∧ p.tasks = [] ∧ p.finished.Perm p.accepted := by
  have hrun : ∃ p : ThreadPool ℕ, Machine.run step (new 1) traceDestroyed = .ok p ∧
      p.threads = [.exited, .returned 7, .returned 8, .destroyed] := ⟨_, rfl, rfl⟩
  obtain ⟨p, hrun, hthreads⟩ := hrun
  have hmem : .destroyed ∈ p.threads := by simp [hthreads]
  exact ⟨p, hmem, (destructor_waits_for_all_tasks Nat.one_pos ⟨_, hrun⟩).2 hmem⟩

end ThreadPool

end KoishiDB
