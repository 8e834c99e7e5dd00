import KoishiDB.Memory.Memtable

/-!
# Write batches

`memory/write_batch.h` and `memory/write_batch.cc`.  A batch is a byte string: a header with the
sequence number (8 bytes) and the number of operations (4 bytes), then the operations.

`Encodes w s ops` says that the bytes of `w` are those of the operations `ops` with the sequence
header `s`; every batch that the interface can build encodes some list of operations.
`InsertAll` inserts one entry for each operation, numbered from `s + 1` on
(`insertAll_spec`).  It hands keys and values on as zero-terminated strings, so what it stores is
cut at the first zero byte, and it stores a deletion with the value `" "`
(`WriteOp.entry`).
-/

namespace KoishiDB

/-- A write batch; no operation makes it shorter than its header. -/
structure WriteBatch where
  /-- The bytes `rep_`. -/
  rep : Bytes
  /-- The header is there. -/
  header : kWriteBatchHeader ≤ rep.length
deriving Repr, DecidableEq

/-- The heights that `RandomHeight` draws for the nodes of a batch, by position. -/
def Heights : Type := { h : ℕ → ℕ // ∀ i, 1 ≤ h i ∧ h i ≤ kSkipListNodeMaxLevel }

/-- Nodes of height one. -/
def flatHeights : Heights := ⟨fun _ => 1, fun _ => ⟨le_rfl, show 1 ≤ 20 by decide⟩⟩

namespace WriteBatch

/-- The constructor, and `WriteBatch::Clear`. -/
def make : WriteBatch := ⟨List.replicate kWriteBatchHeader 0, by simp⟩

/-- `rep_.append`. -/
def push (w : WriteBatch) (bytes : Bytes) : WriteBatch :=
  ⟨w.rep ++ bytes, by have := w.header; rw [List.length_append]; omega⟩

/-- `WriteBatchInternal::Count`. -/
def count (w : WriteBatch) : ℤ := toInt32 (decodeFixed32 (w.rep.drop 8))

/-- `WriteBatchInternal::SetCount`. -/
def setCount (w : WriteBatch) (count : ℤ) : WriteBatch :=
  ⟨w.rep.take 8 ++ (encodeFixed32 (count % 2 ^ 32).toNat ++ w.rep.drop 12), by
    have := w.header
    simp only [kWriteBatchHeader] at this ⊢
    simp
    omega⟩

/-- `WriteBatchInternal::Sequence`. -/
def sequence (w : WriteBatch) : ℕ := decodeFixed64 w.rep

/-- `WriteBatchInternal::SetSequence`. -/
def setSequence (w : WriteBatch) (seq : ℕ) : WriteBatch :=
  ⟨encodeFixed64 seq ++ w.rep.drop 8, by
    have := w.header
    simp only [kWriteBatchHeader] at this ⊢
    simp
    omega⟩

/-- `WriteBatchInternal::Bytes`. -/
def bytes (w : WriteBatch) : ℕ := w.rep.length

/-- `WriteBatch::Put`. -/
def put (w : WriteBatch) (key value : Bytes) : Exec WriteBatch := do
  let c ← addInt w.count 1
  return (w.setCount c).push (putLengthPrefixedSlice
    (putLengthPrefixedSlice [UInt8.ofNat KeyType.kTypeValue.toNat] key) value)

/-- `WriteBatch::Delete`. -/
def delete (w : WriteBatch) (key : Bytes) : Exec WriteBatch := do
  let c ← addInt w.count 1
  return (w.setCount c).push
    (putLengthPrefixedSlice [UInt8.ofNat KeyType.kTypeDeletion.toNat] key)

/-- `WriteBatchInternal::Append`: the operations of `src` go to the end of `dst`. -/
def append (src dst : WriteBatch) : Exec WriteBatch := do
  let c ← addInt src.count dst.count
  return (dst.setCount c).push (src.rep.drop kWriteBatchHeader)

/-- The lambda `ProcessMemtableKey` of `InsertAll`: the entry whose memtable key it makes, if the
key type is known, and the rest of the input.  `user_key.data()` and `value.data()` are taken as
zero-terminated strings. -/
def processMemtableKey (keyType : UInt8) (number : ℕ) (entries : Bytes) :
    Exec (Option Entry × Bytes) :=
  match KeyType.ofByte keyType with
  | some .kTypeValue => do
    let (userKey, entries) ← getLengthPrefixedSlice entries
    let (value, entries) ← getLengthPrefixedSlice entries
    return (some ⟨cString userKey, number, cString value, .kTypeValue⟩, entries)
  | some .kTypeDeletion => do
    let (userKey, entries) ← getLengthPrefixedSlice entries
    return (some ⟨cString userKey, number, [0x20], .kTypeDeletion⟩, entries)
  | none => return (none, entries)

/-- The loop of `InsertAll` with `n` operations to go: the memtable, and the entries inserted. -/
def insertLoop (heights : Heights) : ℕ → ℕ → ℕ → Bytes → Memtable → Exec (Memtable × List Entry)
  | 0, _, _, _, m => .ok (m, [])
  | n + 1, i, number, entries, m => do
    match entries with
    | [] => throw .outOfBounds
    | keyType :: entries =>
      let number := u64 (number + 1)
      let (entry, entries) ← processMemtableKey keyType number entries
      match entry with
      | some e =>
        let m ← m.insert e.memtableKey (heights.val i)
        let (m, es) ← insertLoop heights n (i + 1) number entries m
        return (m, e :: es)
      | none => insertLoop heights n (i + 1) number entries m

/-- `WriteBatch::InsertAll`: the memtable afterwards, and the entries inserted, in order. -/
def insertAll (w : WriteBatch) (m : Memtable) (heights : Heights) : Exec (Memtable × List Entry) :=
  insertLoop heights w.count.toNat 0 w.sequence (w.rep.drop kWriteBatchHeader) m

/-- The loop of `Iterate` with `n` operations to go: the pairs collected, and the rest of the
entries.  An unknown key type gives up all pairs. -/
def iterateLoop : ℕ → Bytes → List (Bytes × Bytes) → Exec (List (Bytes × Bytes) × Bytes)
  | 0, entries, result => .ok (result, entries)
  | _ + 1, [], _ => .error .outOfBounds
  | n + 1, keyType :: entries, result =>
    match KeyType.ofByte keyType with
    | some .kTypeValue => do
      let (userKey, entries) ← getLengthPrefixedSlice entries
      let (value, entries) ← getLengthPrefixedSlice entries
      iterateLoop n entries (result ++ [(userKey, value)])
    | some .kTypeDeletion => do
      let (userKey, entries) ← getLengthPrefixedSlice entries
      iterateLoop n entries (result ++ [(userKey, [])])
    | none => .ok ([], entries)

/-- `WriteBatch::Iterate`: the pairs, and what is left of the entries behind the loop. -/
def iterate (w : WriteBatch) : Exec (List (Bytes × Bytes) × Bytes) :=
  iterateLoop w.count.toNat (w.rep.drop kWriteBatchHeader) []

theorem setSequence_payload (w : WriteBatch) (n : ℕ) :
    (w.setSequence n).rep.drop kWriteBatchHeader = w.rep.drop kWriteBatchHeader := by
  have hlen : kWriteBatchHeader = (encodeFixed64 n).length + 4 := by
    rw [length_encodeFixed64]
    rfl
  change (encodeFixed64 n ++ w.rep.drop 8).drop kWriteBatchHeader = _
  rw [hlen, ← List.drop_drop, List.drop_left, List.drop_drop, length_encodeFixed64]

theorem setSequence_count (w : WriteBatch) (n : ℕ) :
    (w.setSequence n).count = w.count := by
  have : (w.setSequence n).rep.drop 8 = w.rep.drop 8 := List.drop_left' (length_encodeFixed64 n)
  rw [WriteBatch.count, this]
  rfl

end WriteBatch

/-! ### Operations -/

/-- An operation of a batch. -/
inductive WriteOp where
  | put (key value : Bytes)
  | delete (key : Bytes)
deriving Repr, DecidableEq

namespace WriteOp

/-- The user key of an operation. -/
def key : WriteOp → Bytes
  | put k _ => k
  | delete k => k

/-- The call that adds the operation to a batch. -/
def apply (w : WriteBatch) : WriteOp → Exec WriteBatch
  | put k v => w.put k v
  | delete k => w.delete k

/-- The bytes of an operation in a batch. -/
def encode : WriteOp → Bytes
  | put k v => UInt8.ofNat KeyType.kTypeValue.toNat ::
      (encodeVarint32 k.length ++ k ++ (encodeVarint32 v.length ++ v))
  | delete k => UInt8.ofNat KeyType.kTypeDeletion.toNat :: (encodeVarint32 k.length ++ k)

/-- The entry that `InsertAll` inserts for an operation, with its sequence number. -/
def entry (n : ℕ) : WriteOp → Entry
  | put k v => ⟨cString k, n, cString v, .kTypeValue⟩
  | delete k => ⟨cString k, n, [0x20], .kTypeDeletion⟩

/-- The key and the value fit the 32-bit lengths and offsets. -/
def Fits : WriteOp → Prop
  | put k v => KeyFits k v
  | delete k => KeyFits k [0x20]

instance (op : WriteOp) : Decidable op.Fits := by
  cases op <;> unfold Fits KeyFits <;> infer_instance

/-- The lengths of the key, with its tag, and of the value are 32-bit numbers. -/
def Short : WriteOp → Prop
  | put k v => k.length + 8 < 2 ^ 32 ∧ v.length < 2 ^ 32
  | delete k => k.length + 8 < 2 ^ 32

instance (op : WriteOp) : Decidable op.Short := by
  cases op <;> unfold Short <;> infer_instance

theorem Fits.short {op : WriteOp} (h : op.Fits) : op.Short := by
  cases op with
  | put k v => exact ⟨KeyFits.key_lt h, KeyFits.value_lt h⟩
  | delete k => exact KeyFits.key_lt h

/-- The entries of a list of operations, numbered from `s + 1` on. -/
def entries : ℕ → List WriteOp → List Entry
  | _, [] => []
  | s, op :: ops => op.entry (s + 1) :: entries (s + 1) ops

theorem Fits.entry {op : WriteOp} (h : op.Fits) {n : ℕ} (hn : n < 2 ^ 56) : (op.entry n).Fits := by
  cases op with
  | put k v =>
    exact ⟨KeyFits.mono h (length_cString_le k) (length_cString_le v), hn⟩
  | delete k =>
    exact ⟨KeyFits.mono h (length_cString_le k) le_rfl, hn⟩

@[simp] theorem entry_seq (n : ℕ) (op : WriteOp) : (op.entry n).seq = n := by cases op <;> rfl

end WriteOp

section Entries

variable {ops : List WriteOp} {s : ℕ}

theorem length_entries : (WriteOp.entries s ops).length = ops.length := by
  induction ops generalizing s with
  | nil => rfl
  | cons op ops ih => simp [WriteOp.entries, ih]

theorem entries_append (ops' : List WriteOp) : WriteOp.entries s (ops ++ ops') =
    WriteOp.entries s ops ++ WriteOp.entries (s + ops.length) ops' := by
  induction ops generalizing s with
  | nil => rfl
  | cons op ops ih =>
    simp only [List.cons_append, WriteOp.entries, ih, List.length_cons]
    rw [show s + 1 + ops.length = s + (ops.length + 1) by omega]

theorem seq_of_mem_entries {e : Entry} (h : e ∈ WriteOp.entries s ops) :
    s < e.seq ∧ e.seq ≤ s + ops.length := by
  induction ops generalizing s with
  | nil => cases h
  | cons op ops ih =>
    rw [List.length_cons]
    rcases List.mem_cons.1 h with rfl | h
    · rw [WriteOp.entry_seq]; omega
    · have := ih h; omega

/-- The entries of a batch are numbered without a gap. -/
theorem map_seq_entries :
    (WriteOp.entries s ops).map Entry.seq = List.range' (s + 1) ops.length := by
  induction ops generalizing s with
  | nil => rfl
  | cons op ops ih =>
    rw [WriteOp.entries, List.map_cons, WriteOp.entry_seq, ih, List.length_cons, List.range'_succ]

end Entries

/-! ### What a batch encodes -/

/-- The bytes of `w` are a header with the sequence number `s` and the operations `ops`. -/
structure Encodes (w : WriteBatch) (s : ℕ) (ops : List WriteOp) : Prop where
  rep_eq : w.rep = encodeFixed64 s ++ (encodeFixed32 ops.length ++ ops.flatMap WriteOp.encode)
  count_lt : ops.length < 2 ^ 31
  seq_lt : s < 2 ^ 64

namespace Encodes

variable {w w' : WriteBatch} {s : ℕ} {ops ops' : List WriteOp}

theorem make : Encodes WriteBatch.make 0 [] := ⟨by decide, by decide, by decide⟩

theorem drop_eight (h : Encodes w s ops) :
    w.rep.drop 8 = encodeFixed32 ops.length ++ ops.flatMap WriteOp.encode := by
  rw [h.rep_eq]; exact List.drop_left' (length_encodeFixed64 s)

/-- Behind the header stand the operations. -/
theorem payload (h : Encodes w s ops) :
    w.rep.drop kWriteBatchHeader = ops.flatMap WriteOp.encode := by
  have : w.rep.drop kWriteBatchHeader = (w.rep.drop 8).drop 4 := by
    rw [List.drop_drop]; rfl
  rw [this, h.drop_eight]
  exact List.drop_left' (length_encodeFixed32 _)

theorem count (h : Encodes w s ops) : w.count = ops.length := by
  have hlt := h.count_lt
  rw [WriteBatch.count, h.drop_eight, decodeFixed32_encode (by omega), toInt32_of_lt hlt]

theorem sequence (h : Encodes w s ops) : w.sequence = s := by
  rw [WriteBatch.sequence, h.rep_eq, decodeFixed64_encode h.seq_lt]

theorem setSequence (h : Encodes w s ops) {n : ℕ} (hn : n < 2 ^ 64) :
    Encodes (w.setSequence n) n ops :=
  ⟨congrArg (encodeFixed64 n ++ ·) h.drop_eight, h.count_lt, hn⟩

/-- The new count in the header, and more operations behind the old ones. -/
theorem grow (h : Encodes w s ops) {c : ℤ} (hc : c = (ops ++ ops').length)
    (hlt : (ops ++ ops').length < 2 ^ 31) :
    Encodes ((w.setCount c).push (ops'.flatMap WriteOp.encode)) s (ops ++ ops') := by
  refine ⟨?_, hlt, h.seq_lt⟩
  have htake : w.rep.take 8 = encodeFixed64 s := by
    rw [h.rep_eq]; exact List.take_left' (length_encodeFixed64 s)
  have hdrop : w.rep.drop 12 = ops.flatMap WriteOp.encode := h.payload
  have hcount : (c % 2 ^ 32).toNat = (ops ++ ops').length := by omega
  simp only [WriteBatch.push, WriteBatch.setCount, htake, hdrop, hcount, List.flatMap_append,
    List.append_assoc]

/-- `Put` and `Delete` add their operation to the end of the batch. -/
theorem apply (h : Encodes w s ops) {op : WriteOp} (hop : op.apply w = .ok w') :
    Encodes w' s (ops ++ [op]) := by
  have step : ∀ bytes, (do
      let c ← addInt w.count 1
      return (w.setCount c).push bytes) = .ok w' → bytes = op.encode →
      Encodes w' s (ops ++ [op]) := by
    intro bytes hw hb
    obtain ⟨c, hc, hw⟩ := Exec.bind_eq_ok.1 hw
    obtain ⟨⟨-, hlt⟩, rfl⟩ := addInt_eq_ok.1 hc
    rw [h.count] at hlt
    cases hw
    have hcount : w.count + 1 = (ops ++ [op]).length := by rw [h.count]; simp
    have := h.grow hcount (by simp; omega)
    simpa [hb] using this
  cases op with
  | put k v => exact step _ hop (by simp [WriteOp.encode, putLengthPrefixedSlice, putVarint32])
  | delete k => exact step _ hop (by simp [WriteOp.encode, putLengthPrefixedSlice, putVarint32])

theorem exists_apply (h : Encodes w s ops) (op : WriteOp) (hlt : ops.length + 1 < 2 ^ 31) :
    ∃ w', op.apply w = .ok w' := by
  have : addInt w.count 1 = .ok (w.count + 1) :=
    addInt_eq_ok.2 ⟨by rw [h.count]; unfold IntRange; omega, rfl⟩
  cases op <;> simp [WriteOp.apply, WriteBatch.put, WriteBatch.delete, this]

/-- The bytes are determined by the sequence number and the operations. -/
theorem unique (h : Encodes w s ops) (h' : Encodes w' s ops) : w = w' := by
  cases w
  cases w'
  simpa using h.rep_eq.trans h'.rep_eq.symm

/-- `Append` adds the operations of the source to the destination. -/
theorem append {src dst d : WriteBatch} {s' : ℕ} (hsrc : Encodes src s ops)
    (hdst : Encodes dst s' ops') (happ : src.append dst = .ok d) : Encodes d s' (ops' ++ ops) := by
  obtain ⟨c, hc, hd⟩ := Exec.bind_eq_ok.1 happ
  obtain ⟨⟨-, hlt⟩, rfl⟩ := addInt_eq_ok.1 hc
  rw [hsrc.count, hdst.count] at hlt
  cases hd
  rw [hsrc.payload]
  exact hdst.grow (by rw [hsrc.count, hdst.count, List.length_append]; omega)
    (by rw [List.length_append]; omega)

theorem exists_append {src dst : WriteBatch} {s' : ℕ} (hsrc : Encodes src s ops)
    (hdst : Encodes dst s' ops') (hlt : ops.length + ops'.length < 2 ^ 31) :
    ∃ d, src.append dst = .ok d := by
  have hadd : addInt src.count dst.count = .ok (src.count + dst.count) :=
    addInt_eq_ok.2 ⟨by rw [hsrc.count, hdst.count]; unfold IntRange; omega, rfl⟩
  exact ⟨_, by simp only [WriteBatch.append, hadd, Exec.ok_bind, Exec.pure_eq]; rfl⟩

end Encodes

/-- The batch with the operations `ops`, made by `Put` and `Delete` calls. -/
def WriteBatch.build (ops : List WriteOp) : Exec WriteBatch :=
  ops.foldlM WriteOp.apply WriteBatch.make

theorem Encodes.foldlM {w w' : WriteBatch} {s : ℕ} {ops ops' : List WriteOp} (h : Encodes w s ops)
    (hw : ops'.foldlM WriteOp.apply w = .ok w') : Encodes w' s (ops ++ ops') := by
  induction ops' generalizing w ops with
  | nil => cases hw; simpa using h
  | cons op ops' ih =>
    obtain ⟨w₁, hop, hw⟩ := Exec.bind_eq_ok.1 hw
    simpa using ih (h.apply hop) hw

/-- Every batch that `Put` and `Delete` build encodes its operations. -/
theorem encodes_build {w : WriteBatch} {ops : List WriteOp} (h : WriteBatch.build ops = .ok w) :
    Encodes w 0 ops :=
  Encodes.make.foldlM h

theorem exists_build {ops : List WriteOp} (hlt : ops.length < 2 ^ 31) :
    ∃ w, WriteBatch.build ops = .ok w := by
  suffices ∀ (done : List WriteOp) (w : WriteBatch), Encodes w 0 done →
      (done ++ ops).length < 2 ^ 31 → ∃ w', ops.foldlM WriteOp.apply w = .ok w' from
    this [] _ .make hlt
  clear hlt
  induction ops with
  | nil => exact fun _ w _ _ => ⟨w, rfl⟩
  | cons op ops ih =>
    intro done w h hlt
    obtain ⟨w₁, hw₁⟩ := h.exists_apply op (by simp at hlt; omega)
    obtain ⟨w₂, hw₂⟩ := ih _ w₁ (h.apply hw₁) (by simpa using hlt)
    exact ⟨w₂, Exec.bind_eq_ok.2 ⟨w₁, hw₁, hw₂⟩⟩

/-! ### Inserting a batch -/

theorem processMemtableKey_encode {op : WriteOp} (h : op.Short) (n : ℕ) (rest : Bytes) :
    ∃ keyType tail, op.encode ++ rest = keyType :: tail ∧
      WriteBatch.processMemtableKey keyType n tail = .ok (some (op.entry n), rest) := by
  cases op with
  | put k v =>
    obtain ⟨hlk, hlv⟩ : k.length + 8 < 2 ^ 32 ∧ v.length < 2 ^ 32 := h
    refine ⟨_, _, List.cons_append, ?_⟩
    have hk := getLengthPrefixedSlice_put (s := k) (by omega) (encodeVarint32 v.length ++ v ++ rest)
    have hv := getLengthPrefixedSlice_put (s := v) hlv rest
    simp only [List.append_assoc] at hk hv
    simp only [WriteBatch.processMemtableKey, KeyType.ofByte_toNat, List.append_assoc, hk, hv,
      Exec.ok_bind, Exec.pure_eq, WriteOp.entry]
  | delete k =>
    have h : k.length + 8 < 2 ^ 32 := h
    refine ⟨_, _, List.cons_append, ?_⟩
    have hk := getLengthPrefixedSlice_put (s := k) (by omega) rest
    simp only [List.append_assoc] at hk
    simp only [WriteBatch.processMemtableKey, KeyType.ofByte_toNat, List.append_assoc, hk,
      Exec.ok_bind, Exec.pure_eq, WriteOp.entry]

/-- The bytes that a list of entries adds to the size of a memtable. -/
def entryBytes (es : List Entry) : ℕ := (es.map fun e => e.memtableKey.length).sum

/-- **The loop of `InsertAll`** inserts one entry for each operation, with the next sequence
number. -/
theorem insertLoop_spec (heights : Heights) {ops : List WriteOp} (hfit : ∀ op ∈ ops, op.Fits)
    {m : Memtable} {es : List Entry} (hm : Holds m es) {s : ℕ}
    (hnew : ((es ++ WriteOp.entries s ops).map Entry.rank).Nodup) (hs : s + ops.length < 2 ^ 56)
    (i : ℕ) :
    ∃ m', WriteBatch.insertLoop heights ops.length i s (ops.flatMap WriteOp.encode) m =
        .ok (m', WriteOp.entries s ops) ∧ Holds m' (es ++ WriteOp.entries s ops) ∧
      m'.size % 2 ^ 64 = (m.size + entryBytes (WriteOp.entries s ops)) % 2 ^ 64 := by
  induction ops generalizing m es s i with
  | nil =>
    exact ⟨m, rfl, by simpa [WriteOp.entries] using hm, by simp [entryBytes, WriteOp.entries]⟩
  | cons op ops ih =>
    have hlen : s + 1 + ops.length < 2 ^ 56 := by simp only [List.length_cons] at hs; omega
    have hfit' := List.forall_mem_cons.1 hfit
    have hseq : u64 (s + 1) = s + 1 := u64_of_lt (by omega)
    have hsplit : es ++ WriteOp.entries s (op :: ops) =
        es ++ [op.entry (s + 1)] ++ WriteOp.entries (s + 1) ops := by
      simp [WriteOp.entries]
    rw [hsplit] at hnew ⊢
    have hrank : (op.entry (s + 1)).rank ∉ es.map Entry.rank := by
      rw [List.map_append, List.map_append, List.nodup_append, List.nodup_append] at hnew
      exact fun hmem => hnew.1.2.2 _ hmem _ (by simp) rfl
    obtain ⟨m₁, hins, hm₁, hsize⟩ := hm.insert (hfit'.1.entry (n := s + 1) (by omega)) hrank
      (heights.2 i).1 (heights.2 i).2
    obtain ⟨m', hloop, hm', hsize'⟩ := ih hfit'.2 hm₁ hnew hlen (i + 1)
    obtain ⟨keyType, tail, hbytes, hproc⟩ := processMemtableKey_encode hfit'.1.short (s + 1)
      (ops.flatMap WriteOp.encode)
    refine ⟨m', ?_, hm', ?_⟩
    · simp only [List.length_cons, List.flatMap_cons, hbytes, WriteBatch.insertLoop, hseq, hproc,
        Exec.ok_bind, hins, hloop, Exec.pure_eq, WriteOp.entries]
    · rw [hsize', hsize]
      simp only [WriteOp.entries, entryBytes, List.map_cons, List.sum_cons, u64]
      omega

/-- A batch adds no key and sequence number twice. -/
theorem nodup_rank_entries {es : List Entry} {s : ℕ} {ops : List WriteOp}
    (hes : (es.map Entry.rank).Nodup)
    (hnew : ∀ e ∈ es, ∀ e' ∈ WriteOp.entries s ops, e.rank ≠ e'.rank) :
    ((es ++ WriteOp.entries s ops).map Entry.rank).Nodup := by
  have hops : ((WriteOp.entries s ops).map Entry.rank).Nodup :=
    nodup_rank_of_seq (by rw [map_seq_entries]; exact List.nodup_range')
  rw [List.map_append, List.nodup_append]
  refine ⟨hes, hops, ?_⟩
  intro a ha b hb
  obtain ⟨e, he, rfl⟩ := List.mem_map.1 ha
  obtain ⟨e', he', rfl⟩ := List.mem_map.1 hb
  exact hnew e he e' he'

/-- **`InsertAll`** of a batch whose operations fit inserts exactly their entries, when the keys
are new. -/
theorem insertAll_of_new (heights : Heights) {w : WriteBatch} {s : ℕ} {ops : List WriteOp}
    (hw : Encodes w s ops) (hfit : ∀ op ∈ ops, op.Fits) {m : Memtable} {es : List Entry}
    (hm : Holds m es) (hnew : ∀ e ∈ es, ∀ e' ∈ WriteOp.entries s ops, e.rank ≠ e'.rank)
    (hs : s + ops.length < 2 ^ 56) :
    ∃ m', w.insertAll m heights = .ok (m', WriteOp.entries s ops) ∧
      Holds m' (es ++ WriteOp.entries s ops) ∧
      m'.size % 2 ^ 64 = (m.size + entryBytes (WriteOp.entries s ops)) % 2 ^ 64 := by
  obtain ⟨m', h⟩ := insertLoop_spec heights hfit hm (nodup_rank_entries hm.distinct hnew) hs 0
  refine ⟨m', ?_, h.2⟩
  rw [WriteBatch.insertAll, hw.count, hw.sequence, hw.payload, Int.toNat_natCast]
  exact h.1

/-- **`InsertAll`** of a batch that is numbered behind all entries of the memtable. -/
theorem insertAll_spec (heights : Heights) {w : WriteBatch} {s : ℕ} {ops : List WriteOp}
    (hw : Encodes w s ops) (hfit : ∀ op ∈ ops, op.Fits) {m : Memtable} {es : List Entry}
    (hm : Holds m es) (hold : ∀ e ∈ es, e.seq ≤ s) (hs : s + ops.length < 2 ^ 56) :
    ∃ m', w.insertAll m heights = .ok (m', WriteOp.entries s ops) ∧
      Holds m' (es ++ WriteOp.entries s ops) ∧
      m'.size % 2 ^ 64 = (m.size + entryBytes (WriteOp.entries s ops)) % 2 ^ 64 := by
  refine insertAll_of_new heights hw hfit hm ?_ hs
  intro e he e' he' hrank
  exact ((hold e he).trans_lt (seq_of_mem_entries he').1).ne (keyRank_inj.1 hrank).2

/-! ### Inserting into any memtable -/

theorem Memtable.insert_keys {m m' : Memtable} {key : Bytes} {height : ℕ}
    (h : m.insert key height = .ok m') :
    m'.table.nodes.map Node.key = m.table.nodes.map Node.key ++ [key] := by
  obtain ⟨t, ht, h⟩ := Exec.bind_eq_ok.1 h
  cases h
  exact SkipList.insert_keys ht

/-- `Insert` counts the bytes of the key, modulo the size of a `size_t`. -/
theorem Memtable.insert_size {m m' : Memtable} {key : Bytes} {height : ℕ}
    (hm : m.size = u64 m.keyBytes) (h : m.insert key height = .ok m') :
    m'.keyBytes = m.keyBytes + key.length ∧ m'.size = u64 m'.keyBytes := by
  have hkeys := congrArg (fun keys => (keys.map List.length).sum) (Memtable.insert_keys h)
  have hbytes : m'.keyBytes = m.keyBytes + key.length := by
    simpa [keyBytes, Function.comp_def] using hkeys
  refine ⟨hbytes, ?_⟩
  obtain ⟨t, -, h⟩ := Exec.bind_eq_ok.1 h
  obtain rfl := Except.ok.inj h
  rw [hbytes]
  simp only [hm, u64]
  omega

/-- What `ProcessMemtableKey` makes is not much longer than what it takes from the batch. -/
theorem length_processMemtableKey_le {keyType : UInt8} {number : ℕ} {entries rest : Bytes}
    {e : Entry}
    (h : WriteBatch.processMemtableKey keyType number entries = .ok (some e, rest)) :
    e.memtableKey.length + rest.length ≤ entries.length + 18 := by
  have hlen := e.length_memtableKey_le
  unfold WriteBatch.processMemtableKey at h
  split at h
  · obtain ⟨⟨userKey, entries₁⟩, hkey, h⟩ := Exec.bind_eq_ok.1 h
    obtain ⟨⟨value, entries₂⟩, hvalue, h⟩ := Exec.bind_eq_ok.1 h
    cases h
    have h1 := getLengthPrefixedSlice_length hkey
    have h2 := getLengthPrefixedSlice_length hvalue
    have h3 := length_cString_le userKey
    have h4 := length_cString_le value
    dsimp only at hlen
    omega
  · obtain ⟨⟨userKey, entries₁⟩, hkey, h⟩ := Exec.bind_eq_ok.1 h
    cases h
    have h1 := getLengthPrefixedSlice_length hkey
    have h3 := length_cString_le userKey
    rw [List.length_singleton] at hlen
    dsimp only at hlen
    omega
  · cases h

theorem processMemtableKey_none {keyType : UInt8} {number : ℕ} {entries rest : Bytes}
    (h : WriteBatch.processMemtableKey keyType number entries = .ok (none, rest)) :
    rest = entries := by
  unfold WriteBatch.processMemtableKey at h
  split at h
  · obtain ⟨_, -, h⟩ := Exec.bind_eq_ok.1 h
    obtain ⟨_, -, h⟩ := Exec.bind_eq_ok.1 h
    cases h
  · obtain ⟨_, -, h⟩ := Exec.bind_eq_ok.1 h
    cases h
  · cases h
    rfl

/-- Whatever the bytes of the batch are, the loop of `InsertAll` keeps the count of the bytes in the
memtable, and it adds at most the bytes of the batch and 18 bytes for each operation. -/
theorem insertLoop_size (heights : Heights) {n i number : ℕ} {entries : Bytes} {m m' : Memtable}
    {es : List Entry} (hm : m.size = u64 m.keyBytes)
    (h : WriteBatch.insertLoop heights n i number entries m = .ok (m', es)) :
    m'.size = u64 m'.keyBytes ∧ m'.keyBytes ≤ m.keyBytes + entries.length + 18 * n := by
  induction n generalizing i number entries m es with
  | zero =>
    cases h
    exact ⟨hm, by omega⟩
  | succ n ih =>
    cases entries with
    | nil => cases h
    | cons keyType entries =>
      obtain ⟨⟨entry, rest⟩, hproc, hrest⟩ := Exec.bind_eq_ok.1 h
      cases entry with
      | none =>
        obtain rfl := processMemtableKey_none hproc
        obtain ⟨hsize, hle⟩ := ih hm hrest
        exact ⟨hsize, by rw [List.length_cons]; omega⟩
      | some e =>
        obtain ⟨m₁, hins, hrest⟩ := Exec.bind_eq_ok.1 hrest
        obtain ⟨⟨m₂, es₂⟩, hloop, hrest⟩ := Exec.bind_eq_ok.1 hrest
        cases hrest
        obtain ⟨hbytes, hm₁⟩ := Memtable.insert_size hm hins
        obtain ⟨hsize, hle⟩ := ih hm₁ hloop
        have := length_processMemtableKey_le hproc
        exact ⟨hsize, by rw [List.length_cons]; omega⟩

/-- Whatever the memtable holds, the loop of `InsertAll` adds one node for each operation; the
sequence numbers wrap around. -/
theorem insertLoop_entries (heights : Heights) {ops : List WriteOp} (hshort : ∀ op ∈ ops, op.Short)
    {m m' : Memtable} {es : List Entry} {i s : ℕ}
    (h : WriteBatch.insertLoop heights ops.length i s (ops.flatMap WriteOp.encode) m =
      .ok (m', es)) :
    (∀ j, es[j]? = ops[j]?.map (WriteOp.entry (u64 (s + j + 1)))) ∧
      m'.table.nodes.map Node.key = m.table.nodes.map Node.key ++ es.map Entry.memtableKey := by
  induction ops generalizing m es s i with
  | nil => cases h; simp
  | cons op ops ih =>
    have hshort' := List.forall_mem_cons.1 hshort
    obtain ⟨keyType, tail, hbytes, hproc⟩ := processMemtableKey_encode hshort'.1 (u64 (s + 1))
      (ops.flatMap WriteOp.encode)
    simp only [List.length_cons, List.flatMap_cons, hbytes, WriteBatch.insertLoop, hproc,
      Exec.ok_bind] at h
    obtain ⟨m₁, hins, h⟩ := Exec.bind_eq_ok.1 h
    obtain ⟨⟨m₂, es₂⟩, hloop, h⟩ := Exec.bind_eq_ok.1 h
    cases h
    obtain ⟨hes, hkeys⟩ := ih hshort'.2 hloop
    refine ⟨?_, ?_⟩
    · intro j
      cases j with
      | zero => rfl
      | succ j =>
        rw [List.getElem?_cons_succ, List.getElem?_cons_succ, hes]
        congr 2
        simp only [u64]
        omega
    · rw [hkeys, Memtable.insert_keys hins, List.map_cons, List.append_assoc,
        List.singleton_append]

theorem getElem?_entries (s : ℕ) (ops : List WriteOp) (j : ℕ) :
    (WriteOp.entries s ops)[j]? = ops[j]?.map (WriteOp.entry (s + j + 1)) := by
  induction ops generalizing s j with
  | nil => rfl
  | cons op ops ih =>
    cases j with
    | zero => rfl
    | succ j =>
      rw [WriteOp.entries, List.getElem?_cons_succ, List.getElem?_cons_succ, ih]
      congr 2
      omega

/-- Whatever the memtable holds, `InsertAll` of a batch with short operations adds one node for
each operation. -/
theorem insertAll_keys (heights : Heights) {w : WriteBatch} {s : ℕ} {ops : List WriteOp}
    (hw : Encodes w s ops) (hshort : ∀ op ∈ ops, op.Short) {m m' : Memtable} {es : List Entry}
    (hs : s + ops.length < 2 ^ 64) (h : w.insertAll m heights = .ok (m', es)) :
    es = WriteOp.entries s ops ∧
      m'.table.nodes.map Node.key = m.table.nodes.map Node.key ++ es.map Entry.memtableKey := by
  rw [WriteBatch.insertAll, hw.count, hw.sequence, hw.payload, Int.toNat_natCast] at h
  obtain ⟨hes, hkeys⟩ := insertLoop_entries heights hshort h
  refine ⟨List.ext_getElem? ?_, hkeys⟩
  intro j
  rw [hes, getElem?_entries]
  cases hj : ops[j]? with
  | none => rfl
  | some op =>
    have hlt : j < ops.length := (List.getElem?_eq_some_iff.1 hj).1
    rw [u64_of_lt (by omega)]

end KoishiDB
