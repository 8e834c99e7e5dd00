import KoishiDB.Base.Machine
import KoishiDB.Db.DBimpl

/-!
# The database in memory

Calls of `Put`, `Delete` and `Write` on a new database, as long as nothing has been compacted: all
data is in the two memtables.  What `Get` answers is computed from the history of operations
(`get_eq`): it is the value stored for the last operation whose key, cut at its first zero byte, is
the key asked for.

Compared with a map, this differs in two ways: a deletion is answered like a value, with `" "`, and
a zero byte ends keys and values.  `get_eq_mapGet_iff` says for which histories and keys the
answer is the one of a map.
-/

namespace KoishiDB

/-! ### Calls and histories -/

/-- A call of the interface. -/
inductive Call where
  | put (key value : Bytes)
  | delete (key : Bytes)
  /-- `Write` of a batch that `Put` and `Delete` calls have built. -/
  | write (ops : List WriteOp)
deriving Repr, DecidableEq

namespace Call

/-- The operations of a call. -/
def ops : Call → List WriteOp
  | put k v => [.put k v]
  | delete k => [.delete k]
  | write ops => ops

end Call

/-- A call with what it does not decide by itself: the uninitialised size of a new memtable and the
heights of the new nodes. -/
structure Invocation where
  call : Call
  size₀ : ℕ
  heights : Heights

/-- Perform a call. -/
def Invocation.perform (db : DBimpl) (c : Invocation) : Exec DBimpl :=
  Except.map Prod.fst <|
    match c.call with
    | .put k v => db.put c.size₀ c.heights k v
    | .delete k => db.delete c.size₀ c.heights k
    | .write ops => WriteBatch.build ops >>= fun w => db.write c.size₀ c.heights w

/-- The operations of a sequence of calls, in order. -/
def history (cs : List Invocation) : List WriteOp := cs.flatMap fun c => c.call.ops

/-- The last operation whose key satisfies `p`. -/
def lastWhere (p : Bytes → Bool) (ops : List WriteOp) : Option WriteOp :=
  (ops.filter fun op => p op.key).getLast?

/-- The last operation on the key `k`. -/
def lastOn (k : Bytes) (ops : List WriteOp) : Option WriteOp := lastWhere (fun key => key == k) ops

/-- The last operation whose key is `k` up to its first zero byte. -/
def lastCutTo (k : Bytes) (ops : List WriteOp) : Option WriteOp :=
  lastWhere (fun key => cString key == k) ops

/-- What an operation leaves in a map. -/
def WriteOp.mapped : WriteOp → Option Bytes
  | put _ v => some v
  | delete _ => none

/-- What a map answers after the operations. -/
def mapGet (ops : List WriteOp) (k : Bytes) : Option Bytes := (lastOn k ops).bind WriteOp.mapped

/-- The value that is stored for an operation. -/
def WriteOp.stored : WriteOp → Bytes
  | put _ v => cString v
  | delete _ => [0x20]

/-- The history keeps the key `k`: if a key that is `k` up to its first zero byte occurs, the last
operation on `k` is a put, and its value is the one stored for the last of these keys; if none
does, the last operation on `k` is not a put. -/
def Kept (ops : List WriteOp) (k : Bytes) : Prop :=
  match lastCutTo k ops with
  | none => ∀ v, lastOn k ops ≠ some (.put k v)
  | some op => lastOn k ops = some (.put k op.stored)

/-! ### The entries of a history -/

section Entries

variable {ops : List WriteOp} {s : ℕ}

theorem lastWhere_cons (p : Bytes → Bool) (op : WriteOp) (ops : List WriteOp) :
    lastWhere p (op :: ops) = (lastWhere p ops).or (if p op.key then some op else none) := by
  unfold lastWhere
  by_cases hp : p op.key
  · rw [List.filter_cons, if_pos hp, if_pos hp, List.getLast?_cons]
    cases (ops.filter fun op => p op.key).getLast? <;> rfl
  · rw [List.filter_cons, if_neg hp, if_neg hp, Option.or_none]

theorem entry_userKey (op : WriteOp) (n : ℕ) : (op.entry n).userKey = cString op.key := by
  cases op <;> rfl

theorem entry_value (op : WriteOp) (n : ℕ) : (op.entry n).value = op.stored := by
  cases op <;> rfl

/-- No operation on a key that cuts to `k`: no entry of `k`. -/
theorem userKey_ne_of_lastCutTo {k : Bytes} (h : lastCutTo k ops = none) :
    ∀ e ∈ WriteOp.entries s ops, e.userKey ≠ k := by
  induction ops generalizing s with
  | nil => simp [WriteOp.entries]
  | cons op ops ih =>
    rw [lastCutTo, lastWhere_cons, Option.or_eq_none_iff] at h
    intro e he
    rcases List.mem_cons.1 he with rfl | he
    · rw [entry_userKey]
      rintro rfl
      simp at h
    · exact ih h.1 e he

/-- The newest entry of `k` is the one of the last operation on a key that cuts to `k`. -/
theorem newest_of_lastCutTo {k : Bytes} {op : WriteOp} {n : ℕ} (h : lastCutTo k ops = some op)
    (hn : s + ops.length ≤ n) :
    ∃ e, Newest (WriteOp.entries s ops) k n e ∧ e.value = op.stored := by
  induction ops generalizing s with
  | nil => cases h
  | cons o ops ih =>
    rw [List.length_cons] at hn
    rw [lastCutTo, lastWhere_cons] at h
    -- The sequence numbers increase, so the head counts only if nothing behind it does.
    cases hl : lastWhere (fun key => cString key == k) ops with
    | some o' =>
      rw [hl, Option.some_or] at h
      cases h
      obtain ⟨e, he, hv⟩ := ih hl (show s + 1 + ops.length ≤ n by omega)
      refine ⟨e, ⟨List.mem_cons_of_mem _ he.mem, he.key_eq, he.ver_le, ?_⟩, hv⟩
      intro e' he' hk hle
      rcases List.mem_cons.1 he' with rfl | he'
      · have := seq_of_mem_entries he.mem
        rw [WriteOp.entry_seq]
        omega
      · exact he.newest e' he' hk hle
    | none =>
      rw [hl, Option.none_or] at h
      split at h
      · rename_i hk
        cases h
        refine ⟨op.entry (s + 1), ⟨List.mem_cons_self .., ?_, ?_, ?_⟩,
          entry_value op _⟩
        · rw [entry_userKey]; exact eq_of_beq hk
        · rw [WriteOp.entry_seq]; omega
        · intro e' he' hk' _
          rcases List.mem_cons.1 he' with rfl | he'
          · exact le_rfl
          · exact absurd hk' (userKey_ne_of_lastCutTo hl e' he')
      · cases h

end Entries

/-! ### The invariant -/

/-- The memtable holds the entries `es`, and its size is not below their number. -/
structure Sized (m : Memtable) (es : List Entry) : Prop where
  holds : Holds m es
  length_le : es.length ≤ m.size

theorem length_memtableKey_bounds {e : Entry} (h : KeyFits e.userKey e.value) :
    1 ≤ e.memtableKey.length ∧ e.memtableKey.length ≤ 2 ^ 32 := by
  have h1 := length_encodeVarint32_le (e.userKey.length + 8)
  have h2 := length_encodeVarint32_le e.value.length
  unfold KeyFits at h
  simp only [Entry.memtableKey, createMemtableKey, List.length_append, length_createInternalKey]
  omega

theorem entryBytes_bounds {es : List Entry} (h : ∀ e ∈ es, KeyFits e.userKey e.value) :
    es.length ≤ entryBytes es ∧ entryBytes es ≤ es.length * 2 ^ 32 := by
  induction es with
  | nil => simp [entryBytes]
  | cons e es ih =>
    have hb := length_memtableKey_bounds (h e (List.mem_cons_self ..))
    have ih := ih fun e he => h e (List.mem_cons_of_mem _ he)
    simp only [entryBytes, List.map_cons, List.sum_cons, List.length_cons] at ih ⊢
    omega

/-- `InsertAll` into a memtable that is not full: the size does not wrap around. -/
theorem Sized.insertAll {m : Memtable} {es : List Entry} (h : Sized m es)
    (hroom : m.size < kMaxMemtableSize) {w : WriteBatch} {s : ℕ} {ops : List WriteOp}
    (hw : Encodes w s ops) (hfit : ∀ op ∈ ops, op.Fits) (hold : ∀ e ∈ es, e.seq ≤ s)
    (hs : s + ops.length < 2 ^ 56) (heights : Heights) :
    ∃ m', w.insertAll m heights = .ok (m', WriteOp.entries s ops) ∧
      Sized m' (es ++ WriteOp.entries s ops) := by
  obtain ⟨m', hins, hm', hsize⟩ := insertAll_spec heights hw hfit h.holds hold hs
  refine ⟨m', hins, hm', ?_⟩
  have hfits : ∀ e ∈ WriteOp.entries s ops, KeyFits e.userKey e.value := fun e he =>
    (hm'.fits e (List.mem_append_right _ he)).1
  have hb := entryBytes_bounds hfits
  have hlen : (WriteOp.entries s ops).length = ops.length := length_entries
  have hle := h.length_le
  have hcount := hw.count_lt
  unfold kMaxMemtableSize at hroom
  rw [List.length_append]
  omega

/-- The database has performed the operations `ops`, and all of them are in memory: the older ones
in the immutable memtable, if there is one, the newer ones in the memtable. -/
structure InMemory (db : DBimpl) (old new : List WriteOp) : Prop where
  fileMetas : db.fileMetas = []
  memtable : Sized db.memtable (WriteOp.entries (1 + old.length) new)
  immutable : match db.immutableMemtable with
    | none => old = []
    | some imm => Holds imm (WriteOp.entries 1 old)
  lastSequence : db.lastSequence = 1 + old.length + new.length
  old_lt : old.length < 2 ^ 31 + kMaxMemtableSize
  new_lt : new.length < 2 ^ 31 + kMaxMemtableSize

theorem inMemory_fresh (u : Uninit) : InMemory (.fresh u) [] [] where
  fileMetas := rfl
  memtable := ⟨.make _, Nat.zero_le _⟩
  immutable := rfl
  lastSequence := rfl
  old_lt := by decide
  new_lt := by decide

namespace InMemory

variable {db db' : DBimpl} {old new ops : List WriteOp} {size₀ : ℕ}

/-- Making room moves the operations from one memtable to the other, or nothing. -/
theorem makeRoom (h : InMemory db old new) (hroom : db.makeRoomForWrite size₀ = .ok db') :
    ∃ old' new', InMemory db' old' new' ∧ old' ++ new' = old ++ new ∧
      db'.memtable.size < kMaxMemtableSize := by
  rcases DBimpl.makeRoomForWrite_eq_ok.1 hroom with ⟨hlt, rfl⟩ | ⟨-, himm, hlt, rfl⟩
  · exact ⟨old, new, h, rfl, hlt⟩
  · have hold : old = [] := by
      have := h.immutable
      rwa [himm] at this
    subst hold
    refine ⟨new, [], ⟨?_, ?_, ?_, ?_, h.new_lt, by decide⟩, by simp, by
      rw [DBimpl.rotate_memtable]; exact hlt⟩
    · simpa using h.fileMetas
    · rw [DBimpl.rotate_memtable]
      exact ⟨.make _, Nat.zero_le _⟩
    · simpa using h.memtable.holds
    · simpa using h.lastSequence

/-- A `Write` call adds its operations to those in the memtable. -/
theorem write (h : InMemory db old new) {heights : Heights} {w : WriteBatch} {s : ℕ}
    {es : List Entry} (hw : Encodes w s ops) (hfit : ∀ op ∈ ops, op.Fits)
    (hstep : db.write size₀ heights w = .ok (db', es)) :
    ∃ old' new', InMemory db' old' new' ∧ old' ++ new' = old ++ new ++ ops := by
  have hcount := hw.count_lt
  -- `last_sequence_` counts the operations in the two memtables, and those are bounded.
  have hsmall : db.lastSequence + ops.length < 2 ^ 56 := by
    have h1 := h.old_lt
    have h2 := h.new_lt
    unfold kMaxMemtableSize at h1 h2
    rw [h.lastSequence]
    omega
  obtain ⟨db₁, m, w', hroom, hlast, hw', hins, rfl⟩ := DBimpl.write_encodes hw hsmall hstep
  obtain ⟨old', new', h₁, happ, hlt⟩ := h.makeRoom hroom
  rw [h₁.lastSequence] at hlast
  have hold : ∀ e ∈ WriteOp.entries (1 + old'.length) new', e.seq ≤ db.lastSequence := by
    intro e he
    have := seq_of_mem_entries he
    omega
  obtain ⟨m', hins', hm'⟩ := h₁.memtable.insertAll hlt hw' hfit hold hsmall heights
  cases hins.symm.trans hins'
  refine ⟨old', new' ++ ops, ⟨h₁.fileMetas, ?_, h₁.immutable, ?_, h₁.old_lt, ?_⟩, by
    rw [← happ, List.append_assoc]⟩
  · rw [entries_append, hlast]
    exact hm'
  · dsimp only
    rw [List.length_append, ← hlast]
    omega
  · have hnew := h₁.memtable.length_le
    rw [length_entries] at hnew
    rw [List.length_append]
    omega

end InMemory

/-! ### What `Get` answers -/

theorem lastWhere_append (p : Bytes → Bool) (old new : List WriteOp) :
    lastWhere p (old ++ new) = (lastWhere p new).or (lastWhere p old) := by
  simp [lastWhere, List.filter_append, List.getLast?_append]

/-- A memtable answers with the value stored for the last operation on the key. -/
theorem get_seekKey {m : Memtable} {s : ℕ} {ops : List WriteOp} {k : Bytes}
    (hm : Holds m (WriteOp.entries s ops)) (hk : KeyFits k []) (hlt : s + ops.length < 2 ^ 56) :
    m.get (DBimpl.seekKey k) = .ok ((lastCutTo k ops).map WriteOp.stored) := by
  have hmax : storedSeq UINT64_MAX = 2 ^ 56 - 1 := by decide
  cases hl : lastCutTo k ops with
  | none =>
    exact get_seek_none hm hk fun e he hu => absurd hu (userKey_ne_of_lastCutTo hl e he)
  | some op =>
    obtain ⟨e, he, hv⟩ := newest_of_lastCutTo (s := s) (n := storedSeq UINT64_MAX) hl
      (by rw [hmax]; omega)
    rw [DBimpl.seekKey, get_seek_some hm hk he, hv, Option.map_some]

namespace InMemory

variable {db : DBimpl} {old new : List WriteOp}

/-- **What `Get` answers**: the value stored for the last operation whose key, cut at the first
zero byte, is the key asked for. -/
theorem get_eq (h : InMemory db old new) {k : Bytes} (hk : KeyFits k [])
    (files : ℕ → Option Bytes) :
    db.get files k = .ok ((lastCutTo k (old ++ new)).map WriteOp.stored) := by
  have h1 := h.old_lt
  have h2 := h.new_lt
  unfold kMaxMemtableSize at h1 h2
  have hmem := get_seekKey h.memtable.holds hk (by omega)
  have himm : db.searchImmutable k = .ok ((lastCutTo k old).map WriteOp.stored) := by
    have hold := h.immutable
    unfold DBimpl.searchImmutable
    cases hi : db.immutableMemtable with
    | none =>
      rw [hi] at hold
      rw [show old = [] from hold]
      rfl
    | some imm =>
      rw [hi] at hold
      exact get_seekKey hold hk (by omega)
  have hsearch : db.fileMetas = [] := h.fileMetas
  simp only [DBimpl.get, hmem, himm, hsearch, DBimpl.searchFiles, searchTables,
    Exec.ok_bind]
  simp only [lastCutTo, lastWhere_append]
  cases lastWhere (fun key => cString key == k) new with
  | some op => rfl
  | none => cases lastWhere (fun key => cString key == k) old <;> rfl

end InMemory

theorem build_singleton (op : WriteOp) : WriteBatch.build [op] = op.apply WriteBatch.make := by
  rw [WriteBatch.build, List.foldlM_cons]
  cases op.apply WriteBatch.make <;> rfl

/-- Every call builds a batch of its operations and writes it. -/
theorem Invocation.perform_eq_ok {db db' : DBimpl} {c : Invocation}
    (h : Invocation.perform db c = .ok db') : ∃ w es, WriteBatch.build c.call.ops = .ok w ∧
      db.write c.size₀ c.heights w = .ok (db', es) := by
  obtain ⟨⟨db₁, es⟩, hcall, rfl⟩ := Exec.exists_of_map h
  suffices ∃ w, WriteBatch.build c.call.ops = .ok w ∧
      db.write c.size₀ c.heights w = .ok (db₁, es) by
    obtain ⟨w, hw⟩ := this
    exact ⟨w, es, hw⟩
  cases hc : c.call with
  | put k v =>
    rw [hc] at hcall
    rw [Call.ops, build_singleton]
    exact Exec.bind_eq_ok.1 hcall
  | delete k =>
    rw [hc] at hcall
    rw [Call.ops, build_singleton]
    exact Exec.bind_eq_ok.1 hcall
  | write ops =>
    rw [hc] at hcall
    exact Exec.bind_eq_ok.1 hcall

/-- Along every sequence of calls the operations stay in memory. -/
theorem InMemory.run {db db' : DBimpl} {old new : List WriteOp} {cs : List Invocation}
    (h : InMemory db old new) (hfit : ∀ op ∈ history cs, op.Fits)
    (hrun : Machine.run Invocation.perform db cs = .ok db') :
    ∃ old' new', InMemory db' old' new' ∧ old' ++ new' = old ++ new ++ history cs := by
  induction cs generalizing db old new with
  | nil =>
    cases hrun
    exact ⟨old, new, h, by simp [history]⟩
  | cons c cs ih =>
    obtain ⟨db₁, hc, hrun⟩ := Machine.run_cons_ok.1 hrun
    obtain ⟨w, es, hw, hstep⟩ := Invocation.perform_eq_ok hc
    have hops : ∀ op ∈ c.call.ops, op.Fits := fun op hop =>
      hfit op (List.mem_append_left _ hop)
    obtain ⟨old₁, new₁, h₁, happ₁⟩ := h.write (encodes_build hw) hops hstep
    obtain ⟨old₂, new₂, h₂, happ₂⟩ :=
      ih h₁ (fun op hop => hfit op (List.mem_append_right _ hop)) hrun
    refine ⟨old₂, new₂, h₂, ?_⟩
    rw [happ₂, happ₁, List.append_assoc]
    rfl

/-! ### When the answers are those of a map -/

theorem key_of_lastOn {k : Bytes} {ops : List WriteOp} {op : WriteOp} (h : lastOn k ops = some op) :
    op.key = k := by
  have := List.mem_of_getLast? h
  simpa using (List.mem_filter.1 this).2

theorem mapGet_eq_some {k v : Bytes} {ops : List WriteOp} :
    mapGet ops k = some v ↔ lastOn k ops = some (.put k v) := by
  unfold mapGet
  cases hl : lastOn k ops with
  | none => simp
  | some op =>
    have hkey := key_of_lastOn hl
    cases op with
    | put k' v' =>
      have hk : k' = k := hkey
      simp [WriteOp.mapped, hk]
    | delete k' => simp [WriteOp.mapped]

theorem kept_iff {ops : List WriteOp} {k : Bytes} :
    (lastCutTo k ops).map WriteOp.stored = mapGet ops k ↔ Kept ops k := by
  unfold Kept
  cases lastCutTo k ops with
  | none =>
    simp only [Option.map_none, ne_eq, ← mapGet_eq_some]
    rw [eq_comm, Option.eq_none_iff_forall_ne_some]
  | some op =>
    simp only [Option.map_some]
    rw [eq_comm, mapGet_eq_some]

instance (ops : List WriteOp) (k : Bytes) : Decidable (Kept ops k) := decidable_of_iff _ kept_iff

/-- **The database in memory as a map.**  After every sequence of calls on a new database whose
keys and values fit the 32-bit lengths, and before any compaction, `Get` answers for a key what a
map answers, if and only if the history keeps the key. -/
theorem get_eq_mapGet_iff (u : Uninit) {cs : List Invocation} {db : DBimpl}
    (hrun : Machine.run Invocation.perform (.fresh u) cs = .ok db)
    (hfit : ∀ op ∈ history cs, op.Fits) (k : Bytes) (hk : KeyFits k [])
    (files : ℕ → Option Bytes) :
    db.get files k = .ok (mapGet (history cs) k) ↔ Kept (history cs) k := by
  obtain ⟨old, new, h, happ⟩ := (inMemory_fresh u).run hfit hrun
  rw [List.append_nil, List.nil_append] at happ
  rw [h.get_eq hk files, happ, Except.ok.injEq, kept_iff]

/-- A key that is overwritten once. -/
def overwrite : List Invocation :=
  [⟨.put [97] [49], 0, flatHeights⟩, ⟨.write [.put [98] [48], .put [97] [50]], 0, flatHeights⟩]

/-- The second value is found. -/
theorem get_eq_mapGet_iff_overwrite :
    ∃ db, Machine.run Invocation.perform (.fresh ⟨0, false, 0⟩) overwrite = .ok db ∧
      db.get (fun _ => none) [97] = .ok (some [50]) := by
  have hok : (Machine.run Invocation.perform (.fresh ⟨0, false, 0⟩) overwrite).map
      DBimpl.lastSequence = .ok 4 := by decide +kernel
  obtain ⟨db, hrun, -⟩ := Exec.exists_of_map hok
  have hfit : ∀ op ∈ history overwrite, op.Fits := by decide
  exact ⟨db, hrun, (get_eq_mapGet_iff _ hrun hfit [97] (by unfold KeyFits; decide) _).2
    (by decide)⟩

/-- After a put and a deletion of a key, the key is still found, with the value `" "`. -/
theorem get_finds_deleted_key :
    ∃ db, Machine.run Invocation.perform (.fresh ⟨0, false, 0⟩)
        [⟨.put [97] [49], 0, flatHeights⟩, ⟨.delete [97], 0, flatHeights⟩] = .ok db ∧
      mapGet (history [⟨.put [97] [49], 0, flatHeights⟩, ⟨.delete [97], 0, flatHeights⟩]) [97] =
        none ∧
      db.get (fun _ => none) [97] = .ok (some [0x20]) := by
  have hget : (Machine.run Invocation.perform (.fresh ⟨0, false, 0⟩)
      [⟨.put [97] [49], 0, flatHeights⟩, ⟨.delete [97], 0, flatHeights⟩] >>= fun db =>
      db.get (fun _ => none) [97]) = .ok (some [0x20]) := by decide +kernel
  obtain ⟨db, hrun, hdb⟩ := Exec.bind_eq_ok.1 hget
  exact ⟨db, hrun, by decide, hdb⟩

end KoishiDB
