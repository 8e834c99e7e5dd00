import KoishiDB.Db.DBimpl

/-!
# Group commit

`BuildWriteBatchGroup` looks for the writers whose batches together stay below a size limit and is
meant to put their operations into one batch.  It calls `Append` with the two batches exchanged, so
the batch it returns is the one of the first writer and the operations of the others stay out.

* `buildWriteBatchGroup_spec` : which writers form the group.
* `groupExact_iff` : the group is committed exactly if and only if all its writers but the first
  have empty batches.
-/

namespace KoishiDB

/-- The batches of the writers hold the operations `opss`. -/
def Queued (ws : List Writer) (opss : List (List WriteOp)) : Prop :=
  List.Forall₂ (fun w ops => ∃ s, Encodes w.batch s ops) ws opss

/-- The bytes of the batches of the first writers, up to the `i`-th. -/
def groupBytes (ws : List Writer) (i : ℕ) : ℕ := ((ws.take (i + 1)).map fun w => w.batch.bytes).sum

/-- The batches up to the `i`-th stay below the limit that the first batch sets. -/
def JoinsGroup (ws : List Writer) (i : ℕ) : Prop :=
  groupBytes ws i ≤ DBimpl.maxGroupSize (groupBytes ws 0)

instance (ws : List Writer) (i : ℕ) : Decidable (JoinsGroup ws i) :=
  inferInstanceAs (Decidable (_ ≤ _))

/-- The operations of the writers from the front of the queue up to the `n`-th, in order. -/
def groupOps (opss : List (List WriteOp)) (n : ℕ) : List WriteOp := (opss.take (n + 1)).flatten

/-- **Group commit loses and duplicates nothing.**  The batch that `BuildWriteBatchGroup` returns
holds the operations of the writers up to `last_writer`, in order; and whenever these can be
stored, `Write` pops those writers and inserts an entry for each of their operations. -/
def GroupExact (db : DBimpl) (opss : List (List WriteOp)) : Prop :=
  ∃ batch lastWriter ws, DBimpl.buildWriteBatchGroup db.writers = .ok (batch, lastWriter, ws) ∧
    (∃ s, Encodes batch s (groupOps opss lastWriter)) ∧
    ∀ (heights : Heights) (es : List Entry), Holds db.memtable es →
      (∀ e ∈ es, e.seq ≤ db.lastSequence) → (∀ op ∈ groupOps opss lastWriter, op.Fits) →
      db.lastSequence + (groupOps opss lastWriter).length < 2 ^ 56 →
      ∃ c, db.commit heights = .ok c ∧ c.popped.length = lastWriter + 1 ∧
        c.inserted = WriteOp.entries db.lastSequence (groupOps opss lastWriter) ∧
        Holds c.db.memtable (es ++ c.inserted)

/-! ### Which writers form a group -/

theorem length_le_flatMap_encode (ops : List WriteOp) :
    ops.length ≤ (ops.flatMap WriteOp.encode).length := by
  induction ops with
  | nil => simp
  | cons op ops ih =>
    have : 1 ≤ op.encode.length := by cases op <;> simp [WriteOp.encode]
    rw [List.flatMap_cons, List.length_append, List.length_cons]
    omega

/-- A batch has at least one byte for each operation. -/
theorem Encodes.length_le_bytes {w : WriteBatch} {s : ℕ} {ops : List WriteOp}
    (h : Encodes w s ops) : ops.length ≤ w.bytes := by
  have := length_le_flatMap_encode ops
  rw [WriteBatch.bytes, h.rep_eq, List.length_append, List.length_append]
  omega

theorem maxGroupSize_lt (size : ℕ) : DBimpl.maxGroupSize size < 2 ^ 31 := by
  unfold DBimpl.maxGroupSize
  split_ifs with h
  · simp only [Nat.shiftLeft_eq] at h ⊢; omega
  · decide

section Loop

variable {result : WriteBatch} {s maxSize : ℕ} {ops : List WriteOp}

/-- The loop takes the writers in order, as long as the sum of the sizes stays below the limit. -/
theorem groupLoop_spec (hr : Encodes result s ops) (hmax : maxSize < 2 ^ 31) {ws : List Writer}
    {opss : List (List WriteOp)} (hq : Queued ws opss) {size : ℕ} (hsize : result.bytes ≤ size) :
    ∃ n ws', DBimpl.groupLoop result maxSize size ws = .ok (n, ws') ∧ n ≤ ws.length ∧
      ws'.length = ws.length ∧ ∀ j < ws.length, (j < n ↔ size + groupBytes ws j ≤ maxSize) := by
  induction hq generalizing size with
  | nil => exact ⟨0, [], rfl, le_rfl, rfl, by simp⟩
  | @cons w o ws opss hw hq ih =>
    obtain ⟨s', hw⟩ := hw
    have hbytes : ∀ j, size + groupBytes (w :: ws) (j + 1) =
        size + w.batch.bytes + groupBytes ws j := by
      intro j
      simp only [groupBytes, List.take_succ_cons, List.map_cons, List.sum_cons]
      omega
    have hzero : groupBytes (w :: ws) 0 = w.batch.bytes := by simp [groupBytes]
    by_cases hover : size + w.batch.bytes > maxSize
    · refine ⟨0, w :: ws, ?_, Nat.zero_le _, rfl, ?_⟩
      · simp only [DBimpl.groupLoop, if_pos hover, Exec.pure_eq]
      · intro j hj
        have : w.batch.bytes ≤ groupBytes (w :: ws) j := by
          simp only [groupBytes, List.take_succ_cons, List.map_cons, List.sum_cons]
          omega
        simp only [Nat.not_lt_zero, false_iff]
        omega
    -- `Append` has `result` for its source: the batch of the follower grows, `result` does not.
    · have hcount := hr.length_le_bytes
      have hcount' := hw.length_le_bytes
      obtain ⟨d, hd⟩ := hr.exists_append hw (by omega)
      obtain ⟨n, ws', hloop, hn, hlen, hjoin⟩ :=
        ih (show result.bytes ≤ size + w.batch.bytes by omega)
      refine ⟨n + 1, { w with batch := d } :: ws', ?_, Nat.succ_le_succ hn, by simp [hlen],
        ?_⟩
      · simp only [DBimpl.groupLoop, if_neg hover, hd, Exec.ok_bind, hloop, Exec.pure_eq]
      · intro j hj
        cases j with
        | zero => simp only [Nat.zero_lt_succ, true_iff, hzero]; omega
        | succ j =>
          rw [hbytes, Nat.succ_lt_succ_iff]
          exact hjoin j (Nat.lt_of_succ_lt_succ hj)

/-- **Which writers form the group**: all those up to which the batches stay below the limit.  The
batch returned is the one of the first writer. -/
theorem buildWriteBatchGroup_spec {w : Writer} {ws : List Writer} {opss : List (List WriteOp)}
    (hw : Encodes w.batch s ops) (hq : Queued ws opss) :
    ∃ n ws', DBimpl.buildWriteBatchGroup (w :: ws) = .ok (w.batch, n, ws') ∧ n ≤ ws.length ∧
      ws'.length = ws.length + 1 ∧
      ∀ i < ws.length, (i < n ↔ JoinsGroup (w :: ws) (i + 1)) := by
  obtain ⟨n, ws', hloop, hn, hlen, hjoin⟩ :=
    groupLoop_spec hw (maxGroupSize_lt w.batch.bytes) hq le_rfl
  refine ⟨n, w :: ws', ?_, hn, by simp [hlen], ?_⟩
  · simp only [DBimpl.buildWriteBatchGroup, hloop, Exec.ok_bind, Exec.pure_eq]
  · intro i hi
    rw [hjoin i hi, JoinsGroup]
    simp only [groupBytes, List.take_succ_cons, List.map_cons, List.sum_cons, List.take_zero,
      List.map_nil, List.sum_nil, Nat.add_zero]

end Loop

/-! ### What a commit does -/

/-- `Write` inserts the operations of the batch that `BuildWriteBatchGroup` returns. -/
theorem commit_spec {db : DBimpl} {batch : WriteBatch} {n s : ℕ} {ws : List Writer}
    {ops : List WriteOp} {es : List Entry} (heights : Heights)
    (hb : DBimpl.buildWriteBatchGroup db.writers = .ok (batch, n, ws)) (hn : n < ws.length)
    (hbatch : Encodes batch s ops) (hm : Holds db.memtable es)
    (hold : ∀ e ∈ es, e.seq ≤ db.lastSequence) (hfit : ∀ op ∈ ops, op.Fits)
    (hlt : db.lastSequence + ops.length < 2 ^ 56) :
    ∃ c, db.commit heights = .ok c ∧ c.popped.length = n + 1 ∧
      c.inserted = WriteOp.entries db.lastSequence ops ∧ Holds c.db.memtable (es ++ c.inserted) ∧
      c.db.lastSequence = db.lastSequence + ops.length := by
  have hset := hbatch.setSequence (n := db.lastSequence) (by omega)
  obtain ⟨m, hins, hm', -⟩ := insertAll_spec heights hset hfit hm hold hlt
  refine ⟨_, by simp only [DBimpl.commit, hb, Exec.ok_bind, hins, Exec.pure_eq]; rfl, ?_, rfl, hm',
    ?_⟩
  · simp only [List.length_append, List.length_take, List.length_map, List.length_drop]
    omega
  · change ((db.lastSequence + (batch.setSequence db.lastSequence).count) % 2 ^ 64).toNat = _
    rw [hset.count]
    omega

/-! ### When the group is committed exactly -/

theorem groupOps_cons (ops : List WriteOp) (opss : List (List WriteOp)) (n : ℕ) :
    groupOps (ops :: opss) n = ops ++ (opss.take n).flatten := by
  simp [groupOps]

theorem flatten_take_eq_nil_iff {opss : List (List WriteOp)} {n : ℕ} :
    (opss.take n).flatten = [] ↔ ∀ i o, opss[i]? = some o → i < n → o = [] := by
  rw [List.flatten_eq_nil_iff]
  constructor
  · intro h i o ho hi
    exact h o (List.mem_of_getElem? (by rw [List.getElem?_take_of_lt hi]; exact ho))
  · intro h o ho
    obtain ⟨i, hi, rfl⟩ := List.getElem_of_mem ho
    have hlt : i < n := by rw [List.length_take] at hi; omega
    refine h i _ ?_ hlt
    rw [← List.getElem?_take_of_lt hlt]
    exact List.getElem?_eq_getElem hi

/-- **When a group is committed exactly.**  For every queue of writers, the group commit loses and
duplicates nothing if and only if every writer behind the first whose batch still fits into the
group has an empty batch. -/
theorem groupExact_iff {db : DBimpl} {opss : List (List WriteOp)} (hq : Queued db.writers opss)
    (hne : db.writers ≠ []) :
    GroupExact db opss ↔
      ∀ i ops, opss[i]? = some ops → 0 < i → JoinsGroup db.writers i → ops = [] := by
  generalize hws : db.writers = ws at hq hne
  cases hq with
  | nil => exact absurd rfl hne
  | @cons w ops ws opss hw hq =>
    obtain ⟨s, hw⟩ := hw
    obtain ⟨n, ws', hb, hn, hlen, hjoin⟩ := buildWriteBatchGroup_spec hw hq
    have hlength : ws.length = opss.length := hq.length_eq
    -- the condition says that the operations behind those of the first writer are none
    have hcond : (∀ i o, (ops :: opss)[i]? = some o → 0 < i → JoinsGroup (w :: ws) i → o = []) ↔
        (opss.take n).flatten = [] := by
      rw [flatten_take_eq_nil_iff]
      constructor
      · intro h i o ho hi
        have hil : i < ws.length := hi.trans_le hn
        exact h (i + 1) o (by simpa using ho) (Nat.succ_pos i) ((hjoin i hil).1 hi)
      · intro h i o ho hpos hj
        obtain ⟨i, rfl⟩ := Nat.exists_eq_succ_of_ne_zero hpos.ne'
        rw [List.getElem?_cons_succ] at ho
        have hil : i < ws.length := hlength ▸ (List.getElem?_eq_some_iff.1 ho).1
        exact h i o ho ((hjoin i hil).2 hj)
    rw [hcond]
    constructor
    · rintro ⟨batch, lastWriter, ws'', hb', ⟨s', henc⟩, -⟩
      rw [hws, hb] at hb'
      cases hb'
      have hcount := hw.count.symm.trans henc.count
      rw [groupOps_cons, List.length_append] at hcount
      exact List.eq_nil_of_length_eq_zero (by omega)
    · intro hnil
      have hops : groupOps (ops :: opss) n = ops := by rw [groupOps_cons, hnil, List.append_nil]
      refine ⟨w.batch, n, ws', by rw [hws]; exact hb, ⟨s, by rw [hops]; exact hw⟩, ?_⟩
      rw [hops]
      intro heights es hm hold hfit hlt
      obtain ⟨c, hc, hpop, hins, hm', -⟩ := commit_spec heights (by rw [hws]; exact hb)
        (show n < ws'.length by omega) hw hm hold hfit hlt
      exact ⟨c, hc, hpop, hins, hm'⟩

/-- The database without a manifest, with two writers in the queue. -/
def twoWriters (first second : WriteBatch) : DBimpl :=
  { DBimpl.fresh ⟨0, false, 0⟩ with writers := [⟨first, false⟩, ⟨second, false⟩] }

theorem queued_twoWriters {first second : WriteBatch} {ops ops' : List WriteOp}
    (h : WriteBatch.build ops = .ok first) (h' : WriteBatch.build ops' = .ok second) :
    Queued (twoWriters first second).writers [ops, ops'] :=
  .cons ⟨0, encodes_build h⟩ (.cons ⟨0, encodes_build h'⟩ .nil)

/-- A writer with one operation and one with an empty batch are committed exactly. -/
theorem groupExact_iff_empty_follower :
    ∃ w w', WriteBatch.build [.put [97] [49]] = .ok w ∧ WriteBatch.build [] = .ok w' ∧
      GroupExact (twoWriters w w') [[.put [97] [49]], []] := by
  obtain ⟨w, hw⟩ : ∃ w, WriteBatch.build [.put [97] [49]] = .ok w := exists_build (by decide)
  obtain ⟨w', hw'⟩ : ∃ w', WriteBatch.build [] = .ok w' := exists_build (by decide)
  refine ⟨w, w', hw, hw', (groupExact_iff (queued_twoWriters hw hw') (List.cons_ne_nil _ _)).2 ?_⟩
  intro i ops hi hpos _
  match i with
  | 0 => exact absurd hpos (Nat.lt_irrefl 0)
  | 1 => exact (Option.some.inj hi).symm
  | i + 2 => simp at hi

/-- Two writers with one operation each: the second one is popped and marked as done, but the
batch holds the operation of the first one only. -/
theorem groupExact_fails_two_puts :
    ∃ w w', WriteBatch.build [.put [97] [49]] = .ok w ∧ WriteBatch.build [.put [98] [50]] = .ok w' ∧
      Queued (twoWriters w w').writers [[.put [97] [49]], [.put [98] [50]]] ∧
      ¬ GroupExact (twoWriters w w') [[.put [97] [49]], [.put [98] [50]]] := by
  obtain ⟨w, hw⟩ : ∃ w, WriteBatch.build [.put [97] [49]] = .ok w := exists_build (by decide)
  obtain ⟨w', hw'⟩ : ∃ w', WriteBatch.build [.put [98] [50]] = .ok w' := exists_build (by decide)
  have he := encodes_build hw
  have he' := encodes_build hw'
  refine ⟨w, w', hw, hw', queued_twoWriters hw hw', ?_⟩
  rintro ⟨batch, n, ws, hb, ⟨s, henc⟩, -⟩
  have hrest : Queued [⟨w', false⟩] [[.put [98] [50]]] := .cons ⟨0, he'⟩ .nil
  obtain ⟨n', ws', hb', hn', -, hjoin⟩ := buildWriteBatchGroup_spec (w := ⟨w, false⟩) he hrest
  have hbytes : JoinsGroup [⟨w, false⟩, ⟨w', false⟩] 1 := by
    have h1 : w.bytes = 17 := by rw [WriteBatch.bytes, he.rep_eq]; decide
    have h2 : w'.bytes = 17 := by rw [WriteBatch.bytes, he'.rep_eq]; decide
    simp [JoinsGroup, groupBytes, h1, h2, DBimpl.maxGroupSize]
  have hn : n' = 1 := le_antisymm hn' ((hjoin 0 (by simp)).2 hbytes)
  cases hb.symm.trans hb'
  have hcount := he.count.symm.trans henc.count
  rw [hn] at hcount
  exact absurd hcount (by decide)

end KoishiDB
