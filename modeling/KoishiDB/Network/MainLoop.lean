import KoishiDB.Db.Session
import KoishiDB.Network.Server

/-!
# The main loop

`main.cc`: the main thread takes one event after the other, and the threads of the pool run the
handlers.  The block for an `EPOLLIN` event sets the variables `conn_fd` and `connection` and
enqueues a lambda that captures both by reference; nothing keeps the main thread in the block until
the handler is done.  A handler uses the two when it starts, for `Parser::read`, and when it ends,
to write the answer, to close the connection and to erase it.  Between these it calls the database,
with the request that then stands in the connection it has read from.

The steps of the machine are those of the main thread (`accept`, `epollIn`, `leave`), the three
parts of a handler (`read`, `call`, `answer`) and compaction threads; they come in any order.  The
use of a variable of a block that has been left is a fault.  The calls of the database are single
steps, as they are atomic (`KoishiDB.Db.Atomicity`, `KoishiDB.Db.Readers`).

* `late_handler_stuck` : a handler whose block has been left never answers.
-/

namespace KoishiDB

/-! ### The calls of the database -/

namespace World

/-- `db->Put`. -/
def put (w : World) (size₀ : ℕ) (heights : Heights) (key value : Bytes) : Exec World := do
  let db ← w.running
  let (db, es) ← db.put size₀ heights key value
  return { w with db := some db, commits := w.commits ++ [es] }

/-- `db->Delete`. -/
def delete (w : World) (size₀ : ℕ) (heights : Heights) (key : Bytes) : Exec World := do
  let db ← w.running
  let (db, es) ← db.delete size₀ heights key
  return { w with db := some db, commits := w.commits ++ [es] }

/-- The branches of the `switch`: the call of the database and `server_answer`. -/
def respond (w : World) (size₀ : ℕ) (heights : Heights) : DbCall → Exec (World × Bytes)
  | .put key value => do
    let w ← w.put size₀ heights key value
    return (w, [49] ++ crlf)
  | .get key => do
    let db ← w.running
    match ← db.get w.disk.sstable key with
    | some value => return (w, [49] ++ crlf ++ value ++ crlf)
    | none => return (w, [48] ++ crlf)
  | .delete key => do
    let w ← w.delete size₀ heights key
    return (w, [49] ++ crlf)

end World

/-! ### The machine -/

/-- How far a handler has come. -/
inductive Stage where
  /-- In the queue of the pool. -/
  | queued
  /-- `Parser::read` has returned, and `req` refers to the request of the connection. -/
  | parsed (connFd : ℕ)
  /-- The `switch` has come to the answer; an op code without a `case` has none. -/
  | called (answer : Option Bytes)
deriving Repr, DecidableEq

/-- A handler, with the number of the block whose variables it refers to. -/
structure Handler where
  block : ℕ
  stage : Stage
deriving Repr, DecidableEq

/-- The block for an `EPOLLIN` event and its variable `conn_fd`.  The variable `connection` is the
pointer that is stored for `conn_fd`. -/
structure EventBlock where
  number : ℕ
  connFd : ℕ
deriving Repr, DecidableEq

/-- The server. -/
structure Service where
  world : World
  /-- `connection_storage`; `none` is the null pointer. -/
  connectionStorage : ℕ → Option Connection
  /-- `connection->req`; `none` is the null pointer. -/
  requests : ℕ → Option Request
  /-- The block that the main thread is in. -/
  block : Option EventBlock
  /-- How many such blocks have been entered. -/
  blocks : ℕ
  handlers : List Handler
  /-- What has been written to which connection. -/
  answers : List (ℕ × Bytes)

/-- What can happen next. -/
inductive ServiceEvent where
  /-- `main` makes the database. -/
  | start (u : Uninit)
  /-- A compaction thread of the database runs. -/
  | compaction (env : BuildEnv)
  /-- The main thread accepts a connection. -/
  | accept (connFd : ℕ)
  /-- The main thread enters the block for an event and enqueues a handler. -/
  | epollIn (connFd : ℕ)
  /-- The main thread leaves the block. -/
  | leave
  /-- The handler of the block calls `Parser::read`, which receives the bytes or fails. -/
  | read (block : ℕ) (received : Option Bytes)
  /-- It calls the database. -/
  | call (block : ℕ) (size₀ : ℕ) (heights : Heights)
  /-- It writes the answer and closes the connection. -/
  | answer (block : ℕ)

namespace Service

/-- A server that has not been started. -/
def start : Service := ⟨World.start, fun _ => none, fun _ => none, none, 0, [], []⟩

/-- The handler of a block. -/
def stage (s : Service) (block : ℕ) : Exec Stage :=
  match s.handlers.find? fun h => h.block = block with
  | none => .error .blocked
  | some h => .ok h.stage

/-- The reference to `conn_fd` in the handler of a block. -/
def connFd (s : Service) (block : ℕ) : Exec ℕ :=
  match s.block with
  | none => .error .nullptr
  | some b => if b.number = block then .ok b.connFd else .error .nullptr

/-- The handlers after one of them has come to a stage. -/
def setStage (s : Service) (block : ℕ) (stage : Stage) : List Handler :=
  s.handlers.map fun h => if h.block = block then ⟨block, stage⟩ else h

/-- The handlers after one of them has returned. -/
def finished (s : Service) (block : ℕ) : List Handler :=
  s.handlers.filter fun h => h.block ≠ block

/-- `Parser::read(conn_fd, connection)` in a handler. -/
def read (s : Service) (block : ℕ) (received : Option Bytes) : Exec Service := do
  match ← s.stage block with
  | .queued =>
    let connFd ← s.connFd block
    match s.connectionStorage connFd with
    | none => throw .nullptr
    | some connection =>
      match ← connection.readRequest received with
      -- the new request is not filled in then, and the lambda ends without a return statement
      | none => return { s with
          requests := Function.update s.requests connFd none
          handlers := s.finished block }
      | some (connection, req) =>
        return { s with
          connectionStorage := Function.update s.connectionStorage connFd (some connection)
          requests := Function.update s.requests connFd (some req)
          handlers := s.setStage block (.parsed connFd) }
  | _ => throw .blocked

/-- The `switch` in a handler, up to the answer. -/
def call (s : Service) (block size₀ : ℕ) (heights : Heights) : Exec Service := do
  match ← s.stage block with
  | .parsed connFd =>
    match s.requests connFd with
    | none => throw .nullptr
    | some req =>
      match req.call with
      | none => return { s with handlers := s.setStage block (.called none) }
      | some call =>
        let (w, answer) ← s.world.respond size₀ heights call
        return { s with world := w, handlers := s.setStage block (.called (some answer)) }
  | _ => throw .blocked

/-- The end of a handler. -/
def answer (s : Service) (block : ℕ) : Exec Service := do
  match ← s.stage block with
  | .called answer =>
    let connFd ← s.connFd block
    return { s with
      answers := s.answers ++ (answer.map fun bytes => (connFd, bytes)).toList
      connectionStorage := Function.update s.connectionStorage connFd none
      requests := Function.update s.requests connFd none
      handlers := s.finished block }
  | _ => throw .blocked

/-- The machine.  The main thread takes its events one after the other. -/
def step (s : Service) : ServiceEvent → Exec Service
  | .start u => do
    let w ← s.world.step (.create u)
    return { s with world := w }
  | .compaction env => do
    let w ← s.world.step (.backGroundCall env)
    return { s with world := w }
  | .accept connFd =>
    if s.block.isSome then .error .blocked
    else .ok { s with
      connectionStorage := Function.update s.connectionStorage connFd (some .make)
      requests := Function.update s.requests connFd none }
  | .epollIn connFd =>
    if s.block.isSome then .error .blocked
    else .ok { s with
      block := some ⟨s.blocks, connFd⟩
      blocks := s.blocks + 1
      handlers := s.handlers ++ [⟨s.blocks, .queued⟩] }
  | .leave => if s.block.isSome then .ok { s with block := none } else .error .blocked
  | .read block received => s.read block received
  | .call block size₀ heights => s.call block size₀ heights
  | .answer block => s.answer block

/-! ### What the parts of a handler do -/

variable {s s' : Service} {k size₀ : ℕ} {heights : Heights} {received : Option Bytes}

theorem read_cases (h : s.read k received = .ok s') :
    s.stage k = .ok .queued ∧ ∃ connFd connection o, s.connFd k = .ok connFd ∧
      s.connectionStorage connFd = some connection ∧
      Connection.readRequest connection received = .ok o ∧
      (o = none ∧ s' = { s with
          requests := Function.update s.requests connFd none
          handlers := s.finished k } ∨
        ∃ connection' req, o = some (connection', req) ∧ s' = { s with
          connectionStorage := Function.update s.connectionStorage connFd (some connection')
          requests := Function.update s.requests connFd (some req)
          handlers := s.setStage k (.parsed connFd) }) := by
  obtain ⟨stage, hstage, h⟩ := Exec.bind_eq_ok.1 h
  cases stage with
  | parsed connFd => cases h
  | called answer => cases h
  | queued =>
    obtain ⟨connFd, hconnFd, h⟩ := Exec.bind_eq_ok.1 h
    cases hc : s.connectionStorage connFd with
    | none =>
      rw [hc] at h
      cases h
    | some connection =>
      rw [hc] at h
      obtain ⟨o, ho, h⟩ := Exec.bind_eq_ok.1 h
      refine ⟨hstage, connFd, connection, o, hconnFd, hc, ho, ?_⟩
      cases o with
      | none =>
        cases h
        exact .inl ⟨rfl, rfl⟩
      | some x =>
        cases h
        exact .inr ⟨_, _, rfl, rfl⟩

theorem call_cases (h : s.call k size₀ heights = .ok s') :
    ∃ connFd req, s.stage k = .ok (.parsed connFd) ∧ s.requests connFd = some req ∧
      (req.call = none ∧ s' = { s with handlers := s.setStage k (.called none) } ∨
        ∃ call w answer, req.call = some call ∧
          s.world.respond size₀ heights call = .ok (w, answer) ∧
          s' = { s with world := w, handlers := s.setStage k (.called (some answer)) }) := by
  obtain ⟨stage, hstage, h⟩ := Exec.bind_eq_ok.1 h
  cases stage with
  | queued => cases h
  | called answer => cases h
  | parsed connFd =>
    cases hreq : s.requests connFd with
    | none =>
      simp only [hreq] at h
      cases h
    | some req =>
      refine ⟨connFd, req, hstage, hreq, ?_⟩
      simp only [hreq] at h
      cases hcall : req.call with
      | none =>
        simp only [hcall] at h
        cases h
        exact .inl ⟨rfl, rfl⟩
      | some call =>
        simp only [hcall] at h
        obtain ⟨⟨w, answer⟩, hresp, h⟩ := Exec.bind_eq_ok.1 h
        cases h
        exact .inr ⟨call, w, answer, rfl, hresp, rfl⟩

theorem answer_cases (h : s.answer k = .ok s') :
    ∃ answer connFd, s.stage k = .ok (.called answer) ∧ s.connFd k = .ok connFd ∧
      s' = { s with
        answers := s.answers ++ (answer.map fun bytes => (connFd, bytes)).toList
        connectionStorage := Function.update s.connectionStorage connFd none
        requests := Function.update s.requests connFd none
        handlers := s.finished k } := by
  obtain ⟨stage, hstage, h⟩ := Exec.bind_eq_ok.1 h
  cases stage with
  | queued => cases h
  | parsed connFd => cases h
  | called answer =>
    obtain ⟨connFd, hconnFd, h⟩ := Exec.bind_eq_ok.1 h
    cases h
    exact ⟨answer, connFd, hstage, hconnFd, rfl⟩

/-- The block after a step: the same, none, or one with a new number. -/
theorem block_cases {e : ServiceEvent} (h : s.step e = .ok s') :
    (s'.block = s.block ∧ s'.blocks = s.blocks) ∨ (s'.block = none ∧ s'.blocks = s.blocks) ∨
      ∃ connFd, s'.block = some ⟨s.blocks, connFd⟩ ∧ s'.blocks = s.blocks + 1 := by
  cases e with
  | start u =>
    obtain ⟨w, -, h⟩ := Exec.bind_eq_ok.1 h
    cases h
    exact .inl ⟨rfl, rfl⟩
  | compaction env =>
    obtain ⟨w, -, h⟩ := Exec.bind_eq_ok.1 h
    cases h
    exact .inl ⟨rfl, rfl⟩
  | accept connFd =>
    simp only [step] at h
    split_ifs at h
    cases h
    exact .inl ⟨rfl, rfl⟩
  | epollIn connFd =>
    simp only [step] at h
    split_ifs at h
    cases h
    exact .inr (.inr ⟨connFd, rfl, rfl⟩)
  | leave =>
    simp only [step] at h
    split_ifs at h
    cases h
    exact .inr (.inl ⟨rfl, rfl⟩)
  | read block received =>
    obtain ⟨-, _, _, _, -, -, -, ⟨-, rfl⟩ | ⟨_, _, -, rfl⟩⟩ := read_cases h <;>
      exact .inl ⟨rfl, rfl⟩
  | call block size₀ heights =>
    obtain ⟨_, _, -, -, ⟨-, rfl⟩ | ⟨_, _, _, -, -, rfl⟩⟩ := call_cases h <;> exact .inl ⟨rfl, rfl⟩
  | answer block =>
    obtain ⟨_, _, -, -, rfl⟩ := answer_cases h
    exact .inl ⟨rfl, rfl⟩

/-! ### Handlers that come too late -/

/-- The block has been left. -/
def Left (k : ℕ) (s : Service) : Prop := k < s.blocks ∧ ∀ b, s.block = some b → b.number ≠ k

theorem Left.connFd (h : Left k s) : s.connFd k = .error .nullptr := by
  unfold Service.connFd
  split
  · rfl
  · rename_i b hb
    rw [if_neg (h.2 b hb)]

/-- A block is not entered again. -/
theorem Left.step {e : ServiceEvent} (h : Left k s) (hstep : s.step e = .ok s') : Left k s' := by
  obtain ⟨hlt, hne⟩ := h
  rcases block_cases hstep with ⟨hb, hn⟩ | ⟨hb, hn⟩ | ⟨connFd, hb, hn⟩
  · exact ⟨hn ▸ hlt, fun b hb' => hne b (hb ▸ hb')⟩
  · refine ⟨hn ▸ hlt, fun b hb' => ?_⟩
    rw [hb] at hb'
    cases hb'
  · refine ⟨by omega, fun b hb' => ?_⟩
    rw [hb] at hb'
    cases hb'
    exact hlt.ne'

/-- **A handler whose block has been left is stuck.**  Whatever happens afterwards, it neither reads
its request nor answers. -/
theorem late_handler_stuck {es : List ServiceEvent} (h : Left k s)
    (hrun : Machine.run step s es = .ok s') (s'' : Service) :
    (∀ received, s'.step (.read k received) ≠ .ok s'') ∧ s'.step (.answer k) ≠ .ok s'' := by
  have hleft : Left k s' := Machine.run_invariant (C := fun _ _ => True)
    (fun _ _ _ h _ hstep => h.step hstep) h (Machine.along_true _ _) hrun
  constructor
  · intro received hread
    obtain ⟨-, _, _, _, hconnFd, -⟩ := read_cases hread
    cases hleft.connFd.symm.trans hconnFd
  · intro hanswer
    obtain ⟨_, _, -, hconnFd, -⟩ := answer_cases hanswer
    cases hleft.connFd.symm.trans hconnFd

/-! ### A single handler -/

section Single

variable {h : Handler} (hs : s.handlers = [h])
include hs

theorem stage_eq_ok {stage : Stage} (hstage : s.stage k = .ok stage) :
    h.block = k ∧ h.stage = stage := by
  rw [Service.stage, hs] at hstage
  by_cases hk : h.block = k
  · rw [List.find?_cons_of_pos (by simpa using hk)] at hstage
    exact ⟨hk, Except.ok.inj hstage⟩
  · rw [List.find?_cons_of_neg (by simpa using hk)] at hstage
    cases hstage

theorem setStage_single (hk : h.block = k) (stage : Stage) :
    s.setStage k stage = [⟨k, stage⟩] := by
  simp [setStage, hs, hk]

theorem finished_single (hk : h.block = k) : s.finished k = [] := by
  simp [finished, hs, hk]

end Single

theorem connFd_of_block {b : EventBlock} (hb : s.block = some b) (hk : b.number = k) :
    s.connFd k = .ok b.connFd := by
  rw [connFd, hb]
  exact if_pos hk

end Service

end KoishiDB
