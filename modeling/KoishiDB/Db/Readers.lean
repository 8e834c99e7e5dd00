import KoishiDB.Base.SharedLock
import KoishiDB.Db.Atomicity

/-!
# Reading while others write

Any number of threads in `Get`, beside the writers and the compaction threads of
`KoishiDB.Db.Locks`.  `Get` holds `rwlock_` in shared mode and looks at the database step by step:
at `memtable_`, at `immutable_memtable_`, and at one element of `file_metas_` and its file after the
other.  The table files are part of the state, since a compaction writes one.

* `getRest_of_answers` : the steps of `Get` are what `DBimpl.get` does in one.
* `get_linearizes` : in every interleaving, the answer of `Get` is the answer of `DBimpl.get` for a
  database that whole calls of `Write` and `BackGroundCall` have produced, at a moment between the
  call of `Get` and its return.
* `gets_never_go_back` : a `Get` that is called when another one has returned reads the same
  database or one that further whole calls have made of it.
-/

namespace KoishiDB

/-! ### `Get`, step by step -/

/-- Where a thread is in `Get`. -/
inductive GetPoint where
  /-- At `mem->Get`. -/
  | memtable (key : Bytes)
  /-- At `imm->Get`. -/
  | immutable (key : Bytes)
  /-- In the loop over `file_metas_`, with the loop variable. -/
  | table (key : Bytes) (i : ℕ)
deriving Repr, DecidableEq

/-- What `Get` looks at: the database and the table files. -/
abbrev GetView := DBimpl × (ℕ → Option Bytes)

/-- The body of the loop over `file_metas_`: the value, if the table has one. -/
def getFromTable (files : ℕ → Option Bytes) (internalKey : Bytes) (m : FileMeta) :
    Exec (Option Bytes) := do
  if ← m.inRange internalKey then lookupTable files internalKey m else return none

/-- One step of `Get`. -/
def getNext (v : GetView) : GetPoint → Exec (GetPoint ⊕ Option Bytes)
  | .memtable key => do
    match ← v.1.memtable.get (DBimpl.seekKey key) with
    | some value => return .inr (some value)
    | none => return .inl (.immutable key)
  | .immutable key => do
    match ← v.1.searchImmutable key with
    | some value => return .inr (some value)
    | none => return .inl (.table key 0)
  | .table key i =>
    match v.1.fileMetas[i]? with
    | none => .ok (.inr none)
    | some m => do
      match ← getFromTable v.2 (createInternalKey key UINT64_MAX kTypeSeek) m with
      | some value => return .inr (some value)
      | none => return .inl (.table key (i + 1))

/-- What `Get` still has to do. -/
def getRest (v : GetView) : GetPoint → Exec (Option Bytes)
  | .memtable key => v.1.get v.2 key
  | .immutable key => do
    match ← v.1.searchImmutable key with
    | some value => return some value
    | none =>
      DBimpl.searchFiles v.2 (createInternalKey key UINT64_MAX kTypeSeek) v.1.fileMetas
  | .table key i =>
    DBimpl.searchFiles v.2 (createInternalKey key UINT64_MAX kTypeSeek) (v.1.fileMetas.drop i)

/-- The search in the first table, and then in the others. -/
theorem searchFiles_cons (files : ℕ → Option Bytes) (internalKey : Bytes) (m : FileMeta)
    (ms : List FileMeta) :
    DBimpl.searchFiles files internalKey (m :: ms) = (do
      match ← getFromTable files internalKey m with
      | some value => return some value
      | none => DBimpl.searchFiles files internalKey ms) := by
  simp only [DBimpl.searchFiles, searchTables, getFromTable]
  cases m.inRange internalKey with
  | error e => rfl
  | ok inRange =>
    cases inRange with
    | false => rfl
    | true =>
      simp only [Exec.ok_bind, ↓reduceIte]
      cases lookupTable files internalKey m with
      | error e => rfl
      | ok o => cases o <;> rfl

/-- A step of `Get` does not change what comes out in the end. -/
theorem getRest_of_getNext {v : GetView} {r r' : GetPoint} (h : getNext v r = .ok (.inl r')) :
    getRest v r = getRest v r' := by
  cases r with
  | memtable key =>
    obtain ⟨o, ho, h⟩ := Exec.bind_eq_ok.1 h
    cases o <;> cases h
    have hget : v.1.get v.2 key = (v.1.memtable.get (DBimpl.seekKey key) >>= fun o =>
        match o with
        | some value => .ok (some value)
        | none => getRest v (.immutable key)) := rfl
    rw [ho] at hget
    exact hget
  | immutable key =>
    obtain ⟨o, ho, h⟩ := Exec.bind_eq_ok.1 h
    cases o <;> cases h
    simp only [getRest, ho, Exec.ok_bind, List.drop_zero]
  | table key i =>
    simp only [getNext] at h
    split at h
    · cases h
    · rename_i m hm
      obtain ⟨o, ho, h⟩ := Exec.bind_eq_ok.1 h
      cases o <;> cases h
      obtain ⟨hlt, hget⟩ := List.getElem?_eq_some_iff.1 hm
      simp only [getRest]
      rw [List.drop_eq_getElem_cons hlt, hget, searchFiles_cons, ho]
      rfl

theorem getRest_of_done {v : GetView} {r : GetPoint} {o : Option Bytes}
    (h : getNext v r = .ok (.inr o)) : getRest v r = .ok o := by
  cases r with
  | memtable key =>
    obtain ⟨o', ho, h⟩ := Exec.bind_eq_ok.1 h
    cases o' <;> cases h
    simp only [getRest, DBimpl.get, ho, Exec.ok_bind, Exec.pure_eq]
  | immutable key =>
    obtain ⟨o', ho, h⟩ := Exec.bind_eq_ok.1 h
    cases o' <;> cases h
    simp only [getRest, ho, Exec.ok_bind, Exec.pure_eq]
  | table key i =>
    simp only [getNext] at h
    split at h
    · rename_i hnone
      cases h
      simp only [getRest, List.drop_eq_nil_of_le (List.getElem?_eq_none_iff.1 hnone),
        DBimpl.searchFiles, searchTables]
    · rename_i m hm
      obtain ⟨o', ho, h⟩ := Exec.bind_eq_ok.1 h
      cases o' <;> cases h
      obtain ⟨hlt, hget⟩ := List.getElem?_eq_some_iff.1 hm
      simp only [getRest]
      rw [List.drop_eq_getElem_cons hlt, hget, searchFiles_cons, ho]
      rfl

theorem getRest_of_answers {v : GetView} {r : GetPoint} {o : Option Bytes}
    (h : Answers getNext v r o) : getRest v r = .ok o := by
  induction h with
  | done hdone => exact getRest_of_done hdone
  | more hmore _ ih => exact (getRest_of_getNext hmore).trans ih

/-! ### The threads and the table files -/

/-- The threads of the database and the table files. -/
structure DbThreads where
  threads : Threads
  files : ℕ → Option Bytes

namespace DbThreads

/-- The table files after a step: the one that writes a table is that of a compaction thread. -/
def filesAfter (s : DbThreads) : Event → ℕ → Option Bytes
  | .run t c =>
    match s.threads.points[t]?, s.threads.db.backGroundCompaction c.env with
    | some .compact, .ok (_, some r) =>
      let number := s.threads.db.sstableNumber
      Function.update s.files number (r.effect.apply (s.files number))
    | _, _ => s.files
  | _ => s.files

/-- The machine of `KoishiDB.Db.Locks` with the table files. -/
def step (s : DbThreads) (e : Event) : Exec DbThreads := do
  let threads ← s.threads.step e
  return ⟨threads, s.filesAfter e⟩

/-- Somebody holds `rwlock_` exclusively. -/
def busy (s : DbThreads) : Bool := s.threads.rwlock.isSome

/-- What `Get` looks at. -/
def view (s : DbThreads) : GetView := (s.threads.db, s.files)

/-- The machine with the threads in `Get`. -/
def stepWithGets :
    Shared DbThreads Bytes GetPoint (Option Bytes) → SharedEvent Event Bytes →
      Exec (Shared DbThreads Bytes GetPoint (Option Bytes)) :=
  Shared.step step busy view GetPoint.memtable getNext

/-- A new database, and no thread. -/
def start (db : DBimpl) (files : ℕ → Option Bytes) :
    Shared DbThreads Bytes GetPoint (Option Bytes) := ⟨⟨.start db, files⟩, []⟩

variable {s s' : DbThreads} {e : Event}

theorem threads_step (h : s.step e = .ok s') :
    s.threads.step e = .ok s'.threads ∧ s'.files = s.filesAfter e := by
  obtain ⟨t, ht, h⟩ := Exec.bind_eq_ok.1 h
  cases h
  exact ⟨ht, rfl⟩

/-- A thread that writes a table is inside. -/
theorem filesAfter_of_free (hexcl : s.threads.Excl) (hfree : s.threads.rwlock = none) :
    s.filesAfter e = s.files := by
  unfold filesAfter
  cases e with
  | run t c =>
    dsimp only
    split
    · rename_i ht _
      cases hfree.symm.trans (hexcl.lock_eq ht rfl)
    · rfl
  | _ => rfl

/-- Nobody changes the database while `rwlock_` is free. -/
theorem db_of_free {t t' : Threads} (hexcl : t.Excl) (hstep : Threads.Step t e t')
    (hfree : t.rwlock = none) (hfree' : t'.rwlock = none) : t'.db = t.db := by
  have hout : ∀ {i : ℕ} {p : Point}, t.points[i]? = some p → p.holds = true → False := by
    intro i p hi hp
    cases hfree.symm.trans (hexcl.lock_eq hi hp)
  cases hstep with
  | write _ _ =>
    unfold Threads.push at hfree'
    dsimp only at hfree'
    split_ifs at hfree' <;> cases hfree'
  | backGroundCall _ _ => cases hfree'
  | rotate ht _ _ => exact (hout ht rfl).elim
  | commit ht _ _ => exact (hout ht rfl).elim
  | compact ht _ => exact (hout ht rfl).elim
  | notify ht => exact (hout ht rfl).elim
  | _ => rfl

/-! ### Whole runs -/

/-- From a free lock on, everything starts with the database as it is. -/
theorem serial_restart {db₀ : DBimpl} {t : Threads} (h : t.Serial db₀)
    (hfree : t.rwlock = none) : t.Serial t.db := by
  obtain ⟨d, -, hw, hat⟩ := h.started
  obtain ⟨rfl, hq⟩ := hat.free hfree
  exact ⟨h.excl, h.counted, t.db, ⟨[], rfl⟩, hw, Threads.at_of_free hfree rfl hq⟩

theorem serial_step {db₀ : DBimpl} (h : s.threads.Serial db₀) (hstep : s.step e = .ok s') :
    s'.threads.Serial db₀ :=
  h.step (.of_step (threads_step hstep).1)

theorem serial_reachable {db₀ : DBimpl} (h : s.threads.Serial db₀)
    (hreach : Machine.Reachable step s s') : s'.threads.Serial db₀ :=
  hreach.invariant (I := fun s => s.threads.Serial db₀) (fun _ _ _ => serial_step) h

/-- What `Get` looks at does not change while `rwlock_` is free. -/
theorem view_of_free {db₀ : DBimpl} (h : s.threads.Serial db₀) (hstep : s.step e = .ok s')
    (hfree : s.busy = false) (hfree' : s'.busy = false) : s'.view = s.view := by
  have hnone : s.threads.rwlock = none := by simpa [busy] using hfree
  have hnone' : s'.threads.rwlock = none := by simpa [busy] using hfree'
  obtain ⟨hthreads, hfiles⟩ := threads_step hstep
  unfold view
  rw [hfiles, filesAfter_of_free h.excl hnone, db_of_free h.excl (.of_step hthreads) hnone hnone']

/-- When `rwlock_` is free, whole calls have produced the database. -/
theorem exists_calls {db₀ : DBimpl} (h : s.threads.Serial db₀) (hfree : s.busy = false) :
    ∃ calls, Machine.run DBimpl.perform db₀ calls = .ok s.threads.db := by
  obtain ⟨d, ⟨calls, hcalls⟩, -, hat⟩ := h.started
  obtain ⟨rfl, -⟩ := hat.free (by simpa [busy] using hfree)
  exact ⟨calls, hcalls⟩

theorem serial_start {u : Uninit} {manifest : Option Bytes} {db : DBimpl}
    (hmake : DBimpl.make u manifest = .ok db) : (Threads.start db).Serial db := by
  have hrun : Machine.run Threads.step (.start db) [] = .ok (.start db) := rfl
  exact Threads.serial_of_run hmake hrun

variable {u : Uninit} {manifest : Option Bytes} {db : DBimpl} {files : ℕ → Option Bytes}
  {es es' : List (SharedEvent Event Bytes)} {i j : ℕ} {o o' : Option Bytes}
  {g g' : Shared DbThreads Bytes GetPoint (Option Bytes)}

/-- The moment at which a `Get` reads: `rwlock_` is free, and the answer is that of the database at
that moment. -/
theorem entered_of_returned (hmake : DBimpl.make u manifest = .ok db)
    (h : Machine.run stepWithGets (start db files) es = .ok g)
    (hi : g.readers[i]? = some (.returned o)) :
    Shared.Entered step busy view GetPoint.memtable getNext (start db files) es i
      fun v key => Answers getNext v (.memtable key) o :=
  Shared.returned_linearizes (I := fun s => s.threads.Serial db) (fun _ _ _ => serial_step)
    (fun _ _ _ => view_of_free) (serial_start hmake) h hi

/-- **`Get` is linearizable.**  Threads in `Get` and `Write` and compaction threads are interleaved
in any way.  Whatever a `Get` has returned is what `DBimpl.get` answers for the database and the
table files at some moment after it was called and before it returned, and that database is what a
sequence of whole calls makes of the new one. -/
theorem get_linearizes (hmake : DBimpl.make u manifest = .ok db)
    (h : Machine.run stepWithGets (start db files) es = .ok g)
    (hi : g.readers[i]? = some (.returned o)) :
    ∃ es₁ es₂ g₁ key calls, es = es₁ ++ es₂ ∧
      Machine.run stepWithGets (start db files) es₁ = .ok g₁ ∧
      g₁.readers[i]? = some (.waiting key) ∧
      Machine.run DBimpl.perform db calls = .ok g₁.inner.threads.db ∧
      g₁.inner.threads.db.get g₁.inner.files key = .ok o := by
  obtain ⟨es₁, es₂, g₁, key, heq, hrun, hfree, hwait, hanswer⟩ := entered_of_returned hmake h hi
  have hserial := serial_reachable (serial_start hmake) (Shared.reachable_inner hrun)
  obtain ⟨calls, hcalls⟩ := exists_calls hserial hfree
  exact ⟨es₁, es₂, g₁, key, calls, heq, hrun, hwait, hcalls, getRest_of_answers hanswer⟩

/-- A write of one pair, and then a `Get` of its key. -/
def traceGet : List (SharedEvent Event Bytes) :=
  let go := SharedEvent.inner (.run 0 ⟨0, flatHeights, .accepting⟩)
  [.inner (.call [.put [97] [49]]), .call [97], go, go, go, go, .run 0, .run 0]

theorem get_linearizes_traceGet : ∃ db es₁ es₂ g₁ key calls, traceGet = es₁ ++ es₂ ∧
    Machine.run stepWithGets (start db fun _ => none) es₁ = .ok g₁ ∧
    g₁.readers[0]? = some (.waiting key) ∧
    Machine.run DBimpl.perform db calls = .ok g₁.inner.threads.db ∧
    g₁.inner.threads.db.get g₁.inner.files key = .ok (some [49]) := by
  have hrun : (Machine.run stepWithGets (start (.fresh ⟨0, false, 0⟩) fun _ => none) traceGet).map
      (fun g => g.readers) = .ok [.returned (some [49])] := by
    decide +kernel
  obtain ⟨g, hg, hreaders⟩ := Exec.exists_of_map hrun
  have hmake : DBimpl.make ⟨0, false, 0⟩ none = .ok (.fresh ⟨0, false, 0⟩) := rfl
  exact ⟨_, get_linearizes hmake hg (by rw [hreaders]; rfl)⟩

/-- **Reads never go back.**  If one `Get` has returned when another one is called, the database
that the second one answers for is that of the first one after further whole calls. -/
theorem gets_never_go_back (hmake : DBimpl.make u manifest = .ok db)
    (h : Machine.run stepWithGets (start db files) es = .ok g)
    (hi : g.readers[i]? = some (.returned o)) (hj : g.readers.length ≤ j)
    (h' : Machine.run stepWithGets g es' = .ok g')
    (hj' : g'.readers[j]? = some (.returned o')) :
    ∃ es₁ es₂ g₁ key es₃ es₄ g₂ key' calls, es = es₁ ++ es₂ ∧ es' = es₃ ++ es₄ ∧
      Machine.run stepWithGets (start db files) es₁ = .ok g₁ ∧
      g₁.readers[i]? = some (.waiting key) ∧
      g₁.inner.threads.db.get g₁.inner.files key = .ok o ∧
      Machine.run stepWithGets g es₃ = .ok g₂ ∧
      g₂.readers[j]? = some (.waiting key') ∧
      g₂.inner.threads.db.get g₂.inner.files key' = .ok o' ∧
      Machine.run DBimpl.perform g₁.inner.threads.db calls = .ok g₂.inner.threads.db := by
  obtain ⟨es₁, es₂, g₁, key, rfl, hrun, hfree, hwait, hanswer⟩ := entered_of_returned hmake h hi
  have hserial := serial_reachable (serial_start hmake) (Shared.reachable_inner hrun)
  -- the second one enters behind `es₁ ++ es₂`, and so behind `g₁`
  have hboth : Machine.run stepWithGets (start db files) (es₁ ++ es₂ ++ es') = .ok g' :=
    Machine.run_append_ok.2 ⟨g, h, h'⟩
  have hlater := (entered_of_returned hmake hboth hj').after h hj
  obtain ⟨es₃, es₄, g₂, key', rfl, hrun', hfree', hwait', hanswer'⟩ := hlater
  obtain ⟨t, ht, hrest⟩ := Machine.run_append_ok.1 h
  cases hrun.symm.trans ht
  have hreach : Machine.Reachable step g₁.inner g₂.inner :=
    Shared.reachable_inner (Machine.run_append_ok.2 ⟨g, hrest, hrun'⟩)
  have hserial' := serial_reachable (serial_restart hserial (by simpa [busy] using hfree)) hreach
  obtain ⟨calls, hcalls⟩ := exists_calls hserial' hfree'
  exact ⟨es₁, es₂, g₁, key, es₃, es₄, g₂, key', calls, rfl, rfl, hrun, hwait,
    getRest_of_answers hanswer, hrun', hwait', getRest_of_answers hanswer', hcalls⟩

/-- A second `Get`, of a key that is not there. -/
def traceGetAgain : List (SharedEvent Event Bytes) := [.call [98], .run 1, .run 1, .run 1, .run 1]

theorem gets_never_go_back_traceGet : ∃ db g es₁ es₂ g₁ key es₃ es₄ g₂ key' calls,
    traceGet = es₁ ++ es₂ ∧ traceGetAgain = es₃ ++ es₄ ∧
    Machine.run stepWithGets (start db fun _ => none) es₁ = .ok g₁ ∧
    g₁.readers[0]? = some (.waiting key) ∧
    g₁.inner.threads.db.get g₁.inner.files key = .ok (some [49]) ∧
    Machine.run stepWithGets g es₃ = .ok g₂ ∧
    g₂.readers[1]? = some (.waiting key') ∧
    g₂.inner.threads.db.get g₂.inner.files key' = .ok none ∧
    Machine.run DBimpl.perform g₁.inner.threads.db calls = .ok g₂.inner.threads.db := by
  have hrun : (Machine.run stepWithGets (start (.fresh ⟨0, false, 0⟩) fun _ => none) traceGet).map
      (fun g => g.readers) = .ok [.returned (some [49])] := by
    decide +kernel
  have hrun' : (Machine.run stepWithGets (start (.fresh ⟨0, false, 0⟩) fun _ => none)
      (traceGet ++ traceGetAgain)).map (fun g => g.readers) =
      .ok [.returned (some [49]), .returned none] := by
    decide +kernel
  obtain ⟨g, hg, hfirst⟩ := Exec.exists_of_map hrun
  obtain ⟨g', hboth, hreaders'⟩ := Exec.exists_of_map hrun'
  obtain ⟨t, ht, hg'⟩ := Machine.run_append_ok.1 hboth
  cases hg.symm.trans ht
  have hmake : DBimpl.make ⟨0, false, 0⟩ none = .ok (.fresh ⟨0, false, 0⟩) := rfl
  exact ⟨_, g, gets_never_go_back hmake hg (by rw [hfirst]; rfl) (by rw [hfirst]; rfl) hg'
    (by rw [hreaders']; rfl)⟩

end DbThreads

end KoishiDB
