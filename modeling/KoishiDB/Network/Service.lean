import KoishiDB.Db.Forgetful
import KoishiDB.Db.Numbers
import KoishiDB.Network.MainLoop

/-!
# The service, from request bytes to answer bytes

What a client can rely on is a service over the store of two generations
(`KoishiDB.Base.Simulation`): the client whose turn it is hands in a message, the store serves it,
and the reply goes back to that client.  `serves_generations` says that the server is such a
service: the bytes written to the connections are those of the replies, and tell the clients the
replies.

This is so in the runs that `Proper` describes.  The main thread has to stay in the block for an
event until the handler has answered, as a handler that is overtaken never does
(`Service.late_handler_stuck`), and one read has to deliver the whole request.  File operations
succeed, and there are sequence numbers and table numbers left.  The server starts in an empty
directory: the destructor that writes a manifest is never reached.

* `respond_exchange` : one call of the database is one exchange with the store.
* `Reply.bytes_injective` : no two replies have the same bytes.
-/

namespace KoishiDB

/-! ### Answers -/

/-- What an answer says: the answer to a `Put` or a `Delete`, and the two answers to a `Get`. -/
inductive Reply where
  | done
  | found (value : Bytes)
  | missing
deriving Repr, DecidableEq

namespace Reply

/-- The bytes that are written to the connection. -/
def bytes : Reply → Bytes
  | done => [49] ++ crlf
  | found value => [49] ++ crlf ++ value ++ crlf
  | missing => [48] ++ crlf

/-- **The bytes of an answer tell which one it is.** -/
theorem bytes_injective {r r' : Reply} (h : r.bytes = r'.bytes) : r = r' := by
  -- `done` is the start of every `found`, and shorter
  have hne : ∀ value, bytes done ≠ bytes (found value) := by
    intro value heq
    have hlen := congrArg List.length heq
    simp [bytes, crlf] at hlen
  cases r with
  | done =>
    cases r' with
    | done => rfl
    | found value => exact absurd h (hne value)
    | missing => exact absurd h (by decide)
  | found value =>
    cases r' with
    | done => exact absurd h.symm (hne value)
    | found value' => simpa [bytes, crlf] using h
    | missing => simp [bytes, crlf] at h
  | missing =>
    cases r' with
    | done => exact absurd h (by decide)
    | found value => simp [bytes, crlf] at h
    | missing => rfl

/-- What a search has found. -/
def ofGet : Option Bytes → Reply
  | some value => found value
  | none => missing

end Reply

/-! ### The service over the store -/

/-- How far a turn has come. -/
inductive Turn where
  | waiting (connFd : ℕ)
  | asked (connFd : ℕ) (m : Message)
  | served (connFd : ℕ) (r : Reply)

/-- The store, the turn of a client, and the replies given to the clients. -/
structure StoreService where
  store : Option (Generations WriteOp)
  current : Option Turn
  replies : List (ℕ × Reply)

/-- What can happen next. -/
inductive StoreEvent where
  /-- Something that the clients and the store do not see. -/
  | idle
  | turn (connFd : ℕ)
  | ask (m : Message)
  /-- The store serves the message; the young generation becomes the old one first if `rotates`. -/
  | serve (rotates : Bool)
  | reply
  | action (a : GenAction WriteOp)

namespace StoreService

/-- A service without a store. -/
def start : StoreService := ⟨none, none, []⟩

/-- What the store does for a call: it keeps the operations in two generations, and looks for the
last operation on the key. -/
def exchange (g : Generations WriteOp) (rotates : Bool) :
    DbCall → Exec (Generations WriteOp × Reply)
  | .put key value => do
    let g ← g.write [.put key value] rotates
    return (g, .done)
  | .get key => .ok (g, .ofGet ((lastCutTo key g.remembered).map WriteOp.stored))
  | .delete key => do
    let g ← g.write [.delete key] rotates
    return (g, .done)

/-- The machine. -/
def step (s : StoreService) : StoreEvent → Exec StoreService
  | .idle => .ok s
  | .turn connFd =>
    match s.current with
    | none => .ok { s with current := some (.waiting connFd) }
    | _ => .error .blocked
  | .ask m =>
    match s.current with
    | some (.waiting connFd) => .ok { s with current := some (.asked connFd m) }
    | _ => .error .blocked
  | .serve rotates =>
    match s.current, s.store with
    | some (.asked connFd m), some g => do
      let (g, r) ← exchange g rotates m.call
      return { s with store := some g, current := some (.served connFd r) }
    | _, _ => .error .blocked
  | .reply =>
    match s.current with
    | some (.served connFd r) =>
      .ok { s with current := none, replies := s.replies ++ [(connFd, r)] }
    | _ => .error .blocked
  | .action a => do
    let store ← Generations.step s.store a
    return { s with store }

end StoreService

/-- The events of the server and those of the service over the store. -/
inductive EventMatches : ServiceEvent → StoreEvent → Prop
  | start (u : Uninit) : EventMatches (.start u) (.action .create)
  | compaction (env : BuildEnv) : EventMatches (.compaction env) (.action .flush)
  | accept (connFd : ℕ) : EventMatches (.accept connFd) .idle
  | epollIn (connFd : ℕ) : EventMatches (.epollIn connFd) (.turn connFd)
  | leave : EventMatches .leave .idle
  | read (block : ℕ) (m : Message) : EventMatches (.read block (some m.wire)) (.ask m)
  | call (block size₀ : ℕ) (heights : Heights) (rotates : Bool) :
      EventMatches (.call block size₀ heights) (.serve rotates)
  | answer (block : ℕ) : EventMatches (.answer block) .reply

/-- The main thread stays in a block until its handler has answered, every request is a message that
one read delivers, there are sequence numbers and table numbers left, and compactions succeed. -/
def Proper (s : Service) : ServiceEvent → Prop
  | .start _ => True
  | .compaction env => env.Succeeds ∧ ∀ db, s.world.db = some db → db.sstableNumber + 1 < 2 ^ 64
  | .accept _ => True
  | .epollIn _ => True
  | .leave => s.handlers = []
  | .read _ received => ∃ m : Message, received = some m.wire ∧
      m.wire.length ≤ Connection.kReadBuffer
  | .call _ _ _ => ∀ db, s.world.db = some db → db.lastSequence + 1 < storedSeq UINT64_MAX
  | .answer _ => True

/-! ### Messages -/

/-- The bytes that a call hands over. -/
def DbCall.size : DbCall → ℕ
  | put key value => key.length + value.length
  | get key => key.length
  | delete key => key.length

theorem Message.length_le_wire (m : Message) :
    m.key.length + (m.value.getD []).length ≤ m.wire.length := by
  simp only [wire, lines]
  cases m.value with
  | none =>
    simp
    omega
  | some v =>
    simp
    omega

theorem Message.size_call_le_wire (m : Message) : m.call.size ≤ m.wire.length := by
  have hle := m.length_le_wire
  unfold call
  cases m.op with
  | put => exact hle
  | get => exact Nat.le_of_add_right_le hle
  | delete => exact Nat.le_of_add_right_le hle

theorem Message.needed_le_wire (m : Message) : m.needed ≤ m.wire.length := by
  simp only [needed, keyEnd, wire, lines]
  cases m.value with
  | none =>
    simp [crlf]
    split_ifs <;> omega
  | some v =>
    simp [crlf]
    split_ifs <;> omega

/-- A whole message is executed as it was sent. -/
theorem Message.call_wire (m : Message) (hlen : m.wire.length ≤ Connection.kReadBuffer) :
    ∃ req, parseAll m.wire = .ok req ∧ req.call = some m.call := by
  have hpos : 0 < m.wire.length := by simp [wire]
  have hcount : m.wire.length < 2 ^ 31 := by
    unfold Connection.kReadBuffer at hlen
    omega
  obtain ⟨req, hparse, hcall⟩ := call_parseAll_take m hpos (.inr hcount)
  rw [List.take_length] at hparse
  exact ⟨req, hparse, hcall.2 m.needed_le_wire⟩

/-! ### The database under the server -/

/-- `Put` is a `Write` of one operation. -/
theorem World.put_eq (w : World) (size₀ : ℕ) (heights : Heights) (key value : Bytes) :
    w.put size₀ heights key value = w.step (.write [.put key value] size₀ heights) := by
  simp only [World.put, World.step, build_singleton, WriteOp.apply, DBimpl.put]
  cases w.running with
  | error e => rfl
  | ok db => cases WriteBatch.make.put key value <;> rfl

/-- So is `Delete`. -/
theorem World.delete_eq (w : World) (size₀ : ℕ) (heights : Heights) (key : Bytes) :
    w.delete size₀ heights key = w.step (.write [.delete key] size₀ heights) := by
  simp only [World.delete, World.step, build_singleton, WriteOp.apply, DBimpl.delete]
  cases w.running with
  | error e => rfl
  | ok db => cases WriteBatch.make.delete key <;> rfl

/-- What the steps of the server keep: the database holds what the store remembers, no manifest has
been written, and no table is overwritten. -/
structure Holding (w : World) (t : Option (Generations WriteOp)) : Prop where
  remembers : Remembers w t
  fresh : ∀ db, w.db = some db → NumbersFresh db
  manifest : w.disk.manifest = none

theorem holding_start : Holding World.start none where
  remembers := remembers_start
  fresh _ h := by cases h
  manifest := rfl

/-- The conditions on the steps of the database. -/
def ServerKeeps (w : World) : Action → Prop
  | .create _ => True
  | .write ops _ _ => (∀ op ∈ ops, op.Small) ∧
      ∀ db, w.db = some db → db.lastSequence + ops.length < storedSeq UINT64_MAX
  | .backGroundCall env => env.Succeeds ∧ ∀ db, w.db = some db → db.sstableNumber + 1 < 2 ^ 64
  | .destroy _ _ => False

theorem holding_step {w w' : World} {t : Option (Generations WriteOp)} {a : Action}
    (h : Holding w t) (ha : ServerKeeps w a) (hstep : w.step a = .ok w') :
    ∃ m t', ActionMatches a m ∧ Generations.step t m = .ok t' ∧ Holding w' t' := by
  have htables : KeepsTables w a := by
    cases a with
    | create u => trivial
    | write ops size₀ heights => exact ha
    | backGroundCall env => exact ⟨ha.1, fun db hdb => (h.fresh db hdb).next_notMem⟩
    | destroy env manifestEnv => exact ha.elim
  have hnumbers : a.Succeeds ∧ KeepsNumbers w a := by
    cases a with
    | create u => exact ⟨trivial, h.manifest⟩
    | write ops size₀ heights => exact ⟨trivial, trivial⟩
    | backGroundCall env => exact ha
    | destroy env manifestEnv => exact ha.elim
  have hmanifest : w'.disk.manifest = none := by
    rcases World.step_cases hstep with ⟨_, _, -, -, -, rfl⟩ |
      ⟨_, _, _, _, _, _, _, -, -, -, -, rfl⟩ | ⟨_, _, _, r, -, -, -, -, rfl⟩ |
      ⟨env, manifestEnv, _, _, _, _, rfl, -⟩
    · exact h.manifest
    · exact h.manifest
    · cases r <;> exact h.manifest
    · exact ha.elim
  obtain ⟨m, t', hm, ht', hrem⟩ := keeps_step h.remembers htables hstep
  exact ⟨m, t', hm, ht', hrem, numbersFresh_step h.fresh hnumbers hstep, hmanifest⟩

/-- A call that writes one operation. -/
theorem Holding.write {w w' : World} {t : Option (Generations WriteOp)} (h : Holding w t)
    {op : WriteOp} (hsmall : op.Small)
    (hlt : ∀ db, w.db = some db → db.lastSequence + 1 < storedSeq UINT64_MAX) {size₀ : ℕ}
    {heights : Heights} (hstep : w.step (.write [op] size₀ heights) = .ok w') :
    ∃ rotates g g', t = some g ∧ g.write [op] rotates = .ok g' ∧ Holding w' (some g') := by
  have hkeeps : ServerKeeps w (.write [op] size₀ heights) := by
    refine ⟨?_, hlt⟩
    intro op' hop'
    rw [List.mem_singleton.1 hop']
    exact hsmall
  obtain ⟨m, t', hm, ht', hold⟩ := holding_step h hkeeps hstep
  cases hm with
  | write _ _ _ rotates =>
    cases t with
    | none => cases ht'
    | some g =>
      obtain ⟨g', hg', heq⟩ := Exec.exists_of_map ht'
      subst heq
      exact ⟨rotates, g, g', rfl, hg', hold⟩

/-- A call that reads. -/
theorem Holding.get {w : World} {t : Option (Generations WriteOp)} (h : Holding w t) {db : DBimpl}
    (hdb : w.db = some db) {key : Bytes} (hfits : KeyFits key []) :
    ∃ g, t = some g ∧
      db.get w.disk.sstable key = .ok ((lastCutTo key g.remembered).map WriteOp.stored) := by
  obtain ⟨hserved, hnone, hkeeps⟩ := h.remembers
  cases t with
  | none => cases hdb.symm.trans (hnone.2 rfl)
  | some g => exact ⟨g, rfl, (hkeeps db g hdb rfl).get_eq (hserved.running hdb) hfits⟩

/-- **One call of the database is one exchange with the store.** -/
theorem respond_exchange {w w' : World} {t : Option (Generations WriteOp)} {call : DbCall}
    {size₀ : ℕ} {heights : Heights} {answer : Bytes} (h : Holding w t)
    (hsize : call.size ≤ Connection.kReadBuffer)
    (hlt : ∀ db, w.db = some db → db.lastSequence + 1 < storedSeq UINT64_MAX)
    (hstep : w.respond size₀ heights call = .ok (w', answer)) :
    ∃ rotates g g' r, t = some g ∧ StoreService.exchange g rotates call = .ok (g', r) ∧
      Holding w' (some g') ∧ answer = r.bytes := by
  unfold Connection.kReadBuffer at hsize
  -- a request of at most 1024 bytes is small enough for every length in the formats
  cases call with
  | put key value =>
    obtain ⟨w₁, hput, hresp⟩ := Exec.bind_eq_ok.1 hstep
    cases hresp
    rw [World.put_eq] at hput
    simp only [DbCall.size] at hsize
    have hsmall : WriteOp.Small (.put key value) := by
      change key.length + value.length + 2 ^ 13 < 2 ^ 32
      omega
    obtain ⟨rotates, g, g', hg, hg', hold⟩ := h.write hsmall hlt hput
    refine ⟨rotates, g, g', .done, hg, ?_, hold, rfl⟩
    simp only [StoreService.exchange, hg', Exec.ok_bind, Exec.pure_eq]
  | get key =>
    obtain ⟨db, hdb, hresp⟩ := Exec.bind_eq_ok.1 hstep
    rw [World.running_eq_ok] at hdb
    simp only [DbCall.size] at hsize
    have hfits : KeyFits key [] := keyFits_of_length (by rw [List.length_nil]; omega)
    obtain ⟨g, rfl, hget⟩ := h.get hdb hfits
    rw [hget] at hresp
    refine ⟨false, g, g, _, rfl, rfl, ?_⟩
    cases ho : (lastCutTo key g.remembered).map WriteOp.stored with
    | none =>
      rw [ho] at hresp
      cases hresp
      exact ⟨h, rfl⟩
    | some value =>
      rw [ho] at hresp
      cases hresp
      exact ⟨h, rfl⟩
  | delete key =>
    obtain ⟨w₁, hdelete, hresp⟩ := Exec.bind_eq_ok.1 hstep
    cases hresp
    rw [World.delete_eq] at hdelete
    simp only [DbCall.size] at hsize
    have hsmall : WriteOp.Small (.delete key) := by
      change key.length + 1 + 2 ^ 13 < 2 ^ 32
      omega
    obtain ⟨rotates, g, g', hg, hg', hold⟩ := h.write hsmall hlt hdelete
    refine ⟨rotates, g, g', .done, hg, ?_, hold, rfl⟩
    simp only [StoreService.exchange, hg', Exec.ok_bind, Exec.pure_eq]

/-! ### The simulation -/

/-- The connections have received nothing yet, apart from one. -/
def NewBut (connections : ℕ → Option Connection) (connFd : Option ℕ) : Prop :=
  ∀ fd c, connections fd = some c → connFd ≠ some fd → c.read = []

/-- How far the only handler there is has come, and the turn. -/
inductive InTurn (connections : ℕ → Option Connection) (requests : ℕ → Option Request) :
    Option EventBlock → List Handler → Option Turn → Prop
  | idle (b : Option EventBlock) : NewBut connections none → InTurn connections requests b [] none
  | waiting (b : EventBlock) : NewBut connections none →
      InTurn connections requests (some b) [⟨b.number, .queued⟩] (some (.waiting b.connFd))
  | asked (b : EventBlock) (m : Message) (req : Request) : NewBut connections (some b.connFd) →
      m.wire.length ≤ Connection.kReadBuffer → requests b.connFd = some req →
      req.call = some m.call →
      InTurn connections requests (some b) [⟨b.number, .parsed b.connFd⟩]
        (some (.asked b.connFd m))
  | served (b : EventBlock) (r : Reply) : NewBut connections (some b.connFd) →
      InTurn connections requests (some b) [⟨b.number, .called (some r.bytes)⟩]
        (some (.served b.connFd r))

/-- What the simulation keeps. -/
structure Agrees (s : Service) (t : StoreService) : Prop where
  holding : Holding s.world t.store
  current : InTurn s.connectionStorage s.requests s.block s.handlers t.current
  answers : s.answers = t.replies.map (Prod.map id Reply.bytes)

theorem agrees_start : Agrees .start .start where
  holding := holding_start
  current := .idle _ fun _ _ h => by cases h
  answers := rfl

theorem NewBut.weaken {connections : ℕ → Option Connection} (h : NewBut connections none)
    (connFd : Option ℕ) : NewBut connections connFd :=
  fun fd c hc _ => h fd c hc (by simp)

theorem NewBut.update {connections : ℕ → Option Connection} {connFd : Option ℕ}
    (h : NewBut connections connFd) {fd : ℕ} {c : Option Connection}
    (hc : ∀ c', c = some c' → connFd ≠ some fd → c'.read = []) :
    NewBut (Function.update connections fd c) connFd := by
  intro fd' c' hc' hne
  by_cases heq : fd' = fd
  · subst heq
    rw [Function.update_self] at hc'
    exact hc c' hc' hne
  · rw [Function.update_of_ne heq] at hc'
    exact h fd' c' hc' hne

/-- Outside of the blocks there is no turn. -/
theorem InTurn.of_none {connections : ℕ → Option Connection} {requests : ℕ → Option Request}
    {hs : List Handler} {current : Option Turn} (h : InTurn connections requests none hs current) :
    hs = [] ∧ current = none ∧ NewBut connections none := by
  cases h with
  | idle _ hnew => exact ⟨rfl, rfl, hnew⟩

/-- Without a handler there is no turn. -/
theorem InTurn.of_nil {connections : ℕ → Option Connection} {requests : ℕ → Option Request}
    {b : Option EventBlock} {current : Option Turn} (h : InTurn connections requests b [] current) :
    current = none ∧ NewBut connections none := by
  cases h with
  | idle _ hnew => exact ⟨rfl, hnew⟩

/-- A connection that is closed need not be told apart any more. -/
theorem NewBut.close {connections : ℕ → Option Connection} {fd : ℕ}
    (h : NewBut connections (some fd)) : NewBut (Function.update connections fd none) none := by
  intro fd' c hc _
  by_cases heq : fd' = fd
  · rw [heq, Function.update_self] at hc
    cases hc
  · rw [Function.update_of_ne heq] at hc
    exact h fd' c hc fun hfd => heq (Option.some.inj hfd).symm

section Steps

variable {s s' : Service} {t : StoreService} {block size₀ : ℕ} {heights : Heights}

/-- A handler that is at some stage is the only one there is, and its block has not been left. -/
theorem InTurn.of_stage {current : Option Turn} {stage : Stage}
    (h : InTurn s.connectionStorage s.requests s.block s.handlers current)
    (hstage : s.stage block = .ok stage) :
    ∃ b, s.block = some b ∧ b.number = block ∧ s.handlers = [⟨b.number, stage⟩] ∧
      InTurn s.connectionStorage s.requests (some b) [⟨b.number, stage⟩] current := by
  generalize hb : s.block = b at h
  generalize hhs : s.handlers = hs at h
  have hin := h
  cases h with
  | idle b hnew =>
    rw [Service.stage, hhs] at hstage
    cases hstage
  | waiting b hnew =>
    obtain ⟨hk, rfl⟩ := Service.stage_eq_ok hhs hstage
    exact ⟨b, rfl, hk, rfl, hin⟩
  | asked b m req hnew hlen hreq hcall =>
    obtain ⟨hk, rfl⟩ := Service.stage_eq_ok hhs hstage
    exact ⟨b, rfl, hk, rfl, hin⟩
  | served b r hnew =>
    obtain ⟨hk, rfl⟩ := Service.stage_eq_ok hhs hstage
    exact ⟨b, rfl, hk, rfl, hin⟩

/-- **The first part of a handler** is the question of the client whose turn it is. -/
theorem Agrees.read (h : Agrees s t) {m : Message} (hlen : m.wire.length ≤ Connection.kReadBuffer)
    (hstep : s.read block (some m.wire) = .ok s') :
    ∃ t', t.step (.ask m) = .ok t' ∧ Agrees s' t' := by
  obtain ⟨hstage, connFd, connection, o, hconnFd, hconn, hread, hs'⟩ := Service.read_cases hstep
  obtain ⟨hholding, hturn, hanswers⟩ := h
  obtain ⟨b, hb, hk, hhs, hturn⟩ := hturn.of_stage hstage
  obtain ⟨store, current, replies⟩ := t
  cases hturn with
  | waiting b hnew =>
    obtain rfl : b.connFd = connFd :=
      Except.ok.inj ((Service.connFd_of_block hb hk).symm.trans hconnFd)
    obtain ⟨req, hparse, hcall⟩ := m.call_wire hlen
    have hempty : connection.read = [] := hnew b.connFd connection hconn (by simp)
    have hok : connection.readRequest (some m.wire) =
        .ok (some ({ connection with read := m.wire }, req)) := by
      simp only [Connection.readRequest, hempty, List.nil_append, hparse, Exec.ok_bind,
        Exec.pure_eq]
    cases hok.symm.trans hread
    obtain ⟨hnone, -⟩ | ⟨_, _, ho, rfl⟩ := hs'
    · cases hnone
    · cases ho
      refine ⟨_, rfl, hholding, ?_, hanswers⟩
      rw [Service.setStage_single hhs hk]
      dsimp only
      rw [hb, ← hk]
      refine .asked b m req ((hnew.weaken _).update ?_) hlen (Function.update_self ..) hcall
      intro c' _ hne
      exact absurd rfl hne

/-- **The second part** is the exchange with the store. -/
theorem Agrees.call (h : Agrees s t)
    (hlt : ∀ db, s.world.db = some db → db.lastSequence + 1 < storedSeq UINT64_MAX)
    (hstep : s.call block size₀ heights = .ok s') :
    ∃ rotates t', t.step (.serve rotates) = .ok t' ∧ Agrees s' t' := by
  obtain ⟨connFd, req, hstage, hreq, hs'⟩ := Service.call_cases hstep
  obtain ⟨hholding, hturn, hanswers⟩ := h
  obtain ⟨b, hb, hk, hhs, hturn⟩ := hturn.of_stage hstage
  obtain ⟨store, current, replies⟩ := t
  cases hturn with
  | asked b m req' hnew hlen hreq' hcall =>
    cases hreq'.symm.trans hreq
    obtain ⟨hnone, -⟩ | ⟨call, w, answer, hcall', hresp, rfl⟩ := hs'
    · cases hnone.symm.trans hcall
    · obtain rfl : m.call = call := Option.some.inj (hcall.symm.trans hcall')
      obtain ⟨rotates, g, g', r, rfl, hexchange, hholding', rfl⟩ :=
        respond_exchange hholding (m.size_call_le_wire.trans hlen) hlt hresp
      refine ⟨rotates, ⟨some g', some (.served b.connFd r), replies⟩, ?_, hholding', ?_, hanswers⟩
      · simp only [StoreService.step, hexchange, Exec.ok_bind, Exec.pure_eq]
      · rw [Service.setStage_single hhs hk]
        dsimp only
        rw [hb, ← hk]
        exact .served b r hnew

/-- **The last part** hands the reply to the client. -/
theorem Agrees.answer (h : Agrees s t) (hstep : s.answer block = .ok s') :
    ∃ t', t.step .reply = .ok t' ∧ Agrees s' t' := by
  obtain ⟨answer, connFd, hstage, hconnFd, rfl⟩ := Service.answer_cases hstep
  obtain ⟨hholding, hturn, hanswers⟩ := h
  obtain ⟨b, hb, hk, hhs, hturn⟩ := hturn.of_stage hstage
  obtain ⟨store, current, replies⟩ := t
  cases hturn with
  | served b r hnew =>
    obtain rfl : b.connFd = connFd :=
      Except.ok.inj ((Service.connFd_of_block hb hk).symm.trans hconnFd)
    refine ⟨_, rfl, hholding, ?_, ?_⟩
    · rw [Service.finished_single hhs hk]
      exact .idle _ hnew.close
    · simp [hanswers]

/-- **One step of the server** is one step of the service over the store. -/
theorem service_step {e : ServiceEvent} (h : Agrees s t) (hproper : Proper s e)
    (hstep : s.step e = .ok s') : ∃ f t', EventMatches e f ∧ t.step f = .ok t' ∧ Agrees s' t' := by
  cases e with
  | start u =>
    obtain ⟨w, hw, hstep⟩ := Exec.bind_eq_ok.1 hstep
    cases hstep
    obtain ⟨b, store, hb, hstore, hholding⟩ := holding_step h.holding (a := .create u) trivial hw
    cases hb
    exact ⟨_, { t with store }, .start u, by simp [StoreService.step, hstore],
      ⟨hholding, h.current, h.answers⟩⟩
  | compaction env =>
    obtain ⟨w, hw, hstep⟩ := Exec.bind_eq_ok.1 hstep
    cases hstep
    obtain ⟨b, store, hb, hstore, hholding⟩ :=
      holding_step h.holding (a := .backGroundCall env) hproper hw
    cases hb
    exact ⟨_, { t with store }, .compaction env, by simp [StoreService.step, hstore],
      ⟨hholding, h.current, h.answers⟩⟩
  | accept connFd =>
    simp only [Service.step] at hstep
    split_ifs at hstep with hblock
    cases hstep
    have hnone : s.block = none := Option.not_isSome_iff_eq_none.1 hblock
    have hin := h.current
    rw [hnone] at hin
    obtain ⟨hhandlers, hturn, hnew⟩ := hin.of_none
    refine ⟨_, t, .accept connFd, rfl, h.holding, ?_, h.answers⟩
    rw [hhandlers, hturn]
    refine .idle _ (hnew.update ?_)
    intro c hc _
    cases hc
    rfl
  | epollIn connFd =>
    simp only [Service.step] at hstep
    split_ifs at hstep with hblock
    cases hstep
    have hnone : s.block = none := Option.not_isSome_iff_eq_none.1 hblock
    have hin := h.current
    rw [hnone] at hin
    obtain ⟨hhandlers, hturn, hnew⟩ := hin.of_none
    refine ⟨_, { t with current := some (.waiting connFd) }, .epollIn connFd, ?_, h.holding, ?_,
      h.answers⟩
    · simp only [StoreService.step, hturn]
    · rw [hhandlers]
      exact .waiting ⟨s.blocks, connFd⟩ hnew
  | leave =>
    simp only [Service.step] at hstep
    split_ifs at hstep
    cases hstep
    have hhandlers : s.handlers = [] := hproper
    have hin := h.current
    rw [hhandlers] at hin
    obtain ⟨hturn, hnew⟩ := hin.of_nil
    refine ⟨_, t, .leave, rfl, h.holding, ?_, h.answers⟩
    rw [hhandlers, hturn]
    exact .idle _ hnew
  | read k received =>
    obtain ⟨m, rfl, hlen⟩ := hproper
    obtain ⟨t', ht', hagrees⟩ := h.read hlen hstep
    exact ⟨_, t', .read k m, ht', hagrees⟩
  | call k size₀ heights =>
    obtain ⟨rotates, t', ht', hagrees⟩ := h.call hproper hstep
    exact ⟨_, t', .call k size₀ heights rotates, ht', hagrees⟩
  | answer k =>
    obtain ⟨t', ht', hagrees⟩ := h.answer hstep
    exact ⟨_, t', .answer k, ht', hagrees⟩

end Steps

/-- **The server is a service over a store of two generations.**  In every run in which the main
thread stays in a block until its handler has answered, every request is a message that one read
delivers, compactions succeed and the numbers last: the bytes written to each connection are those
of the reply that the store gives to the message of that client, in the order of the turns, and no
other replies have these bytes. -/
theorem serves_generations {es : List ServiceEvent} {s : Service}
    (hall : Machine.Along Service.step Proper .start es)
    (hrun : Machine.run Service.step .start es = .ok s) :
    ∃ fs t, List.Forall₂ EventMatches es fs ∧
      Machine.run StoreService.step .start fs = .ok t ∧
      s.answers = t.replies.map (Prod.map id Reply.bytes) ∧
      ∀ replies, s.answers = replies.map (Prod.map id Reply.bytes) → replies = t.replies := by
  obtain ⟨fs, t, hfs, ht, hagrees⟩ :=
    Machine.run_simulates (fun _ _ _ _ h hp hstep => service_step h hp hstep) agrees_start hall hrun
  refine ⟨fs, t, hfs, ht, hagrees.answers, ?_⟩
  intro replies hreplies
  have hinj : Function.Injective (Prod.map (id : ℕ → ℕ) Reply.bytes) :=
    Function.Injective.prodMap Function.injective_id fun _ _ => Reply.bytes_injective
  exact List.map_injective_iff.2 hinj (hreplies.symm.trans hagrees.answers)

/-- A `Get` of the key `key`. -/
def getKey : Message where
  op := .get
  key := putKeyV.key
  value := none
  key_free := putKeyV.key_free
  value_free _ hv := by cases hv

/-- The server is started, one client puts a pair, and another one asks for its key. -/
def putThenGet : List ServiceEvent :=
  [.start ⟨0, false, 0⟩, .accept 5, .accept 6,
    .epollIn 6, .read 0 (some putKeyV.wire), .call 0 0 flatHeights, .answer 0, .leave,
    .epollIn 5, .read 1 (some getKey.wire), .call 1 0 flatHeights, .answer 1]

/-- A test for the conditions on these steps. -/
def properTest (s : Service) : ServiceEvent → Bool
  | .leave => s.handlers.isEmpty
  | .call _ _ _ => (s.world.db.map DBimpl.lastSequence).getD 0 + 1 < storedSeq UINT64_MAX
  | _ => true

theorem along_putThenGet : Machine.Along Service.step Proper .start putThenGet := by
  have hcheck : Machine.check Service.step properTest .start putThenGet = true := by
    decide +kernel
  refine Machine.along_of_check ?_ hcheck
  intro s e he htest
  cases e with
  | leave => exact List.isEmpty_iff.1 htest
  | call block size₀ heights =>
    intro db hdb
    have hlt := of_decide_eq_true htest
    rwa [hdb] at hlt
  | read block received =>
    simp only [putThenGet, List.mem_cons, ServiceEvent.read.injEq, reduceCtorEq, false_or,
      List.not_mem_nil, or_false] at he
    rcases he with ⟨-, rfl⟩ | ⟨-, rfl⟩
    · exact ⟨putKeyV, rfl, by decide⟩
    · exact ⟨getKey, rfl, by decide⟩
  | compaction env => simp [putThenGet] at he
  | start u => trivial
  | accept connFd => trivial
  | epollIn connFd => trivial
  | answer block => trivial

theorem serves_generations_putThenGet : ∃ s fs t,
    Machine.run Service.step .start putThenGet = .ok s ∧
    s.answers = [(6, [49, 13, 10]), (5, [49, 13, 10, 118, 13, 10])] ∧
    List.Forall₂ EventMatches putThenGet fs ∧ Machine.run StoreService.step .start fs = .ok t ∧
    s.answers = t.replies.map (Prod.map id Reply.bytes) ∧
    ∀ replies, s.answers = replies.map (Prod.map id Reply.bytes) → replies = t.replies := by
  have hrun : (Machine.run Service.step .start putThenGet).map (fun s => s.answers) =
      .ok [(6, [49, 13, 10]), (5, [49, 13, 10, 118, 13, 10])] := by
    decide +kernel
  obtain ⟨s, hs, hanswers⟩ := Exec.exists_of_map hrun
  obtain ⟨fs, t, hfs, ht, hbytes, hunique⟩ := serves_generations along_putThenGet hs
  exact ⟨s, fs, t, hs, hanswers, hfs, ht, hbytes, hunique⟩

end KoishiDB
