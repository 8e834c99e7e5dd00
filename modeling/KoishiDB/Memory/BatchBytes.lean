import KoishiDB.Memory.WriteBatch

/-!
# What a batch keeps of its bytes

A batch holds the keys and values of its operations byte for byte, with their lengths in front, and
`Iterate` reads them back.  `InsertAll` reads them by their lengths too, but passes them to
`CreateMemtableKey` through `std::string::data()`, that is, as zero-terminated strings.  A key or
value with a zero byte arrives there without the zero byte and all that follows it.

* `batch_encoding` : `Count`, `Iterate` and `Append` on batches of any operations.
* `stored_entry_iff` : when the entry that `InsertAll` makes of an operation decodes to it.
* `insertAll_keeps_bytes_iff` : when all of a batch arrives in the memtable.
-/

namespace KoishiDB

/-! ### Reading a batch -/

namespace WriteOp

/-- The lengths of the key and of the value of a `Put` have 32 bits. -/
def LengthsFit : WriteOp → Prop
  | put key value => key.length < 2 ^ 32 ∧ value.length < 2 ^ 32
  | delete key => key.length < 2 ^ 32

instance LengthsFit.decidable (op : WriteOp) : Decidable op.LengthsFit :=
  match op with
  | .put key value => inferInstanceAs (Decidable (key.length < 2 ^ 32 ∧ value.length < 2 ^ 32))
  | .delete key => inferInstanceAs (Decidable (key.length < 2 ^ 32))

/-- What `Iterate` returns for the operation. -/
def pair : WriteOp → Bytes × Bytes
  | put key value => (key, value)
  | delete key => (key, [])

end WriteOp

/-- One round of the loop of `Iterate`. -/
theorem iterateLoop_encode {op : WriteOp} (h : op.LengthsFit) (n : ℕ) (rest : Bytes)
    (result : List (Bytes × Bytes)) :
    WriteBatch.iterateLoop (n + 1) (op.encode ++ rest) result =
      WriteBatch.iterateLoop n rest (result ++ [op.pair]) := by
  cases op with
  | put k v =>
    obtain ⟨hlk, hlv⟩ : k.length < 2 ^ 32 ∧ v.length < 2 ^ 32 := h
    have hk := getLengthPrefixedSlice_put (s := k) hlk (encodeVarint32 v.length ++ v ++ rest)
    have hv := getLengthPrefixedSlice_put (s := v) hlv rest
    simp only [List.append_assoc] at hk hv
    simp only [WriteOp.encode, List.cons_append, List.append_assoc, WriteBatch.iterateLoop,
      KeyType.ofByte_toNat, hk, hv, Exec.ok_bind, WriteOp.pair]
  | delete k =>
    have hk := getLengthPrefixedSlice_put (s := k) h rest
    simp only [List.append_assoc] at hk
    simp only [WriteOp.encode, List.cons_append, List.append_assoc, WriteBatch.iterateLoop,
      KeyType.ofByte_toNat, hk, Exec.ok_bind, WriteOp.pair]

/-- The whole loop reads one pair for each operation and nothing behind the last. -/
theorem iterateLoop_flatMap {ops : List WriteOp} (h : ∀ op ∈ ops, op.LengthsFit)
    (result : List (Bytes × Bytes)) :
    WriteBatch.iterateLoop ops.length (ops.flatMap WriteOp.encode) result =
      .ok (result ++ ops.map WriteOp.pair, []) := by
  induction ops generalizing result with
  | nil => simp [WriteBatch.iterateLoop]
  | cons op ops ih =>
    obtain ⟨hop, hops⟩ := List.forall_mem_cons.1 h
    rw [List.length_cons, List.flatMap_cons, iterateLoop_encode hop, ih hops, List.append_assoc]
    rfl

/-- `Iterate` reads the operations back and uses up all bytes. -/
theorem Encodes.iterate {w : WriteBatch} {s : ℕ} {ops : List WriteOp} (hw : Encodes w s ops)
    (h : ∀ op ∈ ops, op.LengthsFit) : w.iterate = .ok (ops.map WriteOp.pair, []) := by
  rw [WriteBatch.iterate, hw.count, hw.payload, Int.toNat_natCast, iterateLoop_flatMap h]
  rfl

/-- `Append` gives the batch of all operations, with the header of the destination. -/
theorem Encodes.append_eq {src dst w : WriteBatch} {s s' : ℕ} {ops ops' : List WriteOp}
    (hsrc : Encodes src s ops) (hdst : Encodes dst s' ops') (hw : Encodes w s' (ops' ++ ops)) :
    src.append dst = .ok w := by
  have hlt := hw.count_lt
  rw [List.length_append] at hlt
  obtain ⟨d, hd⟩ := hsrc.exists_append hdst (by omega)
  rw [hd, (hsrc.append hdst hd).unique hw]

/-- **The encoding of a batch.**  For all sequences `a` and `b` of operations with any bytes: the
batch of `a` has the count of `a`, `Iterate` returns its pairs and uses up the batch, and `Append`
of the batch of `b` to it gives, byte for byte, the batch of `a` and `b` with the header of the
first. -/
theorem batch_encoding {a b : List WriteOp} (hfit : ∀ op ∈ a ++ b, op.LengthsFit)
    (hlt : (a ++ b).length < 2 ^ 31) :
    ∃ wa wb wab, WriteBatch.build a = .ok wa ∧ WriteBatch.build b = .ok wb ∧
      WriteBatch.build (a ++ b) = .ok wab ∧
      wa.count = a.length ∧ wa.iterate = .ok (a.map WriteOp.pair, []) ∧
      wb.append wa = .ok wab ∧
      ∀ s s', s < 2 ^ 64 → s' < 2 ^ 64 →
        (wa.setSequence s).iterate = .ok (a.map WriteOp.pair, []) ∧
        (wb.setSequence s').append (wa.setSequence s) = .ok (wab.setSequence s) := by
  have hlen : a.length + b.length < 2 ^ 31 := by rwa [List.length_append] at hlt
  have hfita : ∀ op ∈ a, op.LengthsFit := fun op hop => hfit op (List.mem_append_left b hop)
  obtain ⟨wa, hwa⟩ := exists_build (show a.length < 2 ^ 31 by omega)
  obtain ⟨wb, hwb⟩ := exists_build (show b.length < 2 ^ 31 by omega)
  obtain ⟨wab, hwab⟩ := exists_build hlt
  have ha := encodes_build hwa
  have hb := encodes_build hwb
  have hab := encodes_build hwab
  refine ⟨wa, wb, wab, hwa, hwb, hwab, ha.count, ha.iterate hfita, hb.append_eq ha hab, ?_⟩
  intro s s' hs hs'
  exact ⟨(ha.setSequence hs).iterate hfita,
    (hb.setSequence hs').append_eq (ha.setSequence hs) (hab.setSequence hs)⟩

/-- A put with zero bytes and a deletion, and a put of an empty key behind them. -/
theorem batch_encoding_put_delete :
    ∃ wa wb wab, WriteBatch.build [.put [0] [1, 0], .delete [2]] = .ok wa ∧
      WriteBatch.build [.put [] []] = .ok wb ∧
      WriteBatch.build [.put [0] [1, 0], .delete [2], .put [] []] = .ok wab ∧
      wa.count = 2 ∧ wa.iterate = .ok ([([0], [1, 0]), ([2], [])], []) ∧
      wb.append wa = .ok wab := by
  obtain ⟨wa, wb, wab, hwa, hwb, hwab, hcount, hiter, happ, -⟩ :=
    batch_encoding (a := [.put [0] [1, 0], .delete [2]]) (b := [.put [] []]) (by decide) (by decide)
  exact ⟨wa, wb, wab, hwa, hwb, hwab, hcount, hiter, happ⟩

/-! ### Reading a node -/

/-- The memtable key decodes to this user key, sequence number and key type. -/
def DecodesTo (memtableKey userKey : Bytes) (seq : ℕ) (type : KeyType) : Prop :=
  (extractInternalKey memtableKey >>= fun internalKey => extractUserKey internalKey) =
      .ok (userKey, seq) ∧
    (LookupKey.make memtableKey >>= LookupKey.getKeyType) = .ok type

/-- The memtable key decodes to the operation and its sequence number, with the value of a
`Put`. -/
def WriteOp.StoredAs (seq : ℕ) (memtableKey : Bytes) : WriteOp → Prop
  | put key value => DecodesTo memtableKey key seq .kTypeValue ∧
      extractValueFromMemtable memtableKey = .ok value
  | delete key => DecodesTo memtableKey key seq .kTypeDeletion

/-- Neither the key nor the value of a `Put` has a zero byte. -/
def WriteOp.ZeroFree : WriteOp → Prop
  | put key value => 0 ∉ key ∧ 0 ∉ value
  | delete key => 0 ∉ key

instance WriteOp.ZeroFree.decidable (op : WriteOp) : Decidable op.ZeroFree :=
  match op with
  | .put key value => inferInstanceAs (Decidable (0 ∉ key ∧ 0 ∉ value))
  | .delete key => inferInstanceAs (Decidable (0 ∉ key))

theorem decodesTo_create {u v u' : Bytes} {n n' : ℕ} {t t' : KeyType} (h : KeyFits u v) :
    DecodesTo (createMemtableKey u n v t) u' n' t' ↔ u = u' ∧ storedSeq n = n' ∧ t = t' := by
  simp only [DecodesTo, extractInternalKey_create n v t h.key_lt, lookupKey_make_create n t h,
    Exec.ok_bind, extractUserKey_create, lookupOf_getKeyType, Except.ok.injEq, Prod.mk.injEq,
    Slice.ofBytes_inj, Option.some.injEq, and_assoc]

/-- **The entry of one operation** decodes to the operation exactly when nothing is cut off. -/
theorem stored_entry_iff {op : WriteOp} (h : op.Fits) {n seq : ℕ} :
    op.StoredAs seq (op.entry n).memtableKey ↔ op.ZeroFree ∧ storedSeq n = seq := by
  cases op with
  | put k v =>
    have hfit : KeyFits (cString k) (cString v) :=
      KeyFits.mono h (length_cString_le k) (length_cString_le v)
    simp only [WriteOp.StoredAs, WriteOp.entry, Entry.memtableKey, WriteOp.ZeroFree,
      decodesTo_create hfit, extractValueFromMemtable_create _ _ hfit, Except.ok.injEq,
      cString_eq_self]
    tauto
  | delete k =>
    have hfit : KeyFits (cString k) [0x20] := KeyFits.mono h (length_cString_le k) le_rfl
    simp only [WriteOp.StoredAs, WriteOp.entry, Entry.memtableKey, WriteOp.ZeroFree,
      decodesTo_create hfit, cString_eq_self, and_true]

/-! ### Inserting a batch -/

/-- `InsertAll` returns, and adds one node for each operation, in order, that decodes to the
operation and the next sequence number behind the header. -/
def KeepsBytes (w : WriteBatch) (m : Memtable) (heights : Heights) (ops : List WriteOp) : Prop :=
  ∃ m' inserted keys, w.insertAll m heights = .ok (m', inserted) ∧
    m'.table.nodes.map Node.key = m.table.nodes.map Node.key ++ keys ∧
    keys.length = ops.length ∧
    ∀ (i : ℕ) (op : WriteOp), ops[i]? = some op →
      ∃ key, keys[i]? = some key ∧ op.StoredAs (w.sequence + i + 1) key

section Batch

variable {w : WriteBatch} {m : Memtable} {heights : Heights} {s : ℕ} {ops : List WriteOp}

/-- Whatever the memtable holds: if every byte arrives, there was no zero byte to cut at. -/
theorem KeepsBytes.zeroFree (h : KeepsBytes w m heights ops) (hw : Encodes w s ops)
    (hfit : ∀ op ∈ ops, op.Fits) :
    (∀ op ∈ ops, op.ZeroFree) ∧ (ops = [] ∨ s + ops.length < 2 ^ 56) := by
  obtain ⟨m', inserted, keys, hins, hnodes, -, hstored⟩ := h
  rw [WriteBatch.insertAll, hw.count, hw.sequence, hw.payload, Int.toNat_natCast] at hins
  obtain ⟨hentries, hkeys⟩ := insertLoop_entries heights (fun op hop => (hfit op hop).short) hins
  have hkeys : keys = inserted.map Entry.memtableKey :=
    List.append_cancel_left (hnodes.symm.trans hkeys)
  have hop : ∀ (i : ℕ) (op : WriteOp), ops[i]? = some op → op.ZeroFree ∧ s + i + 1 < 2 ^ 56 := by
    intro i op hi
    obtain ⟨key, hkey, hst⟩ := hstored i op hi
    rw [hkeys, List.getElem?_map, hentries, hi] at hkey
    obtain rfl := Option.some.inj hkey
    rw [hw.sequence] at hst
    obtain ⟨hzero, hseq⟩ := (stored_entry_iff (hfit op (List.mem_of_getElem? hi))).1 hst
    exact ⟨hzero, hseq ▸ storedSeq_lt _⟩
  refine ⟨?_, ?_⟩
  · intro op hmem
    obtain ⟨i, hi⟩ := List.mem_iff_getElem?.1 hmem
    exact (hop i op hi).1
  · -- the last operation has the largest sequence number
    rcases List.eq_nil_or_concat ops with rfl | ⟨ops, op, rfl⟩
    · exact .inl rfl
    · have := (hop ops.length op (by simp)).2
      exact .inr (by simpa [Nat.add_assoc] using this)

/-- **When a batch keeps every byte.**  For every batch of `Put` and `Delete` calls with the
sequence header `s`, inserted into a memtable that has none of its keys: the entries inserted are
those of the operations, byte for byte, if and only if no key and no value of a `Put` has a zero
byte and the sequence numbers have 56 bits. -/
theorem insertAll_keeps_bytes_iff (heights : Heights) (hw : WriteBatch.build ops = .ok w)
    (hs : s < 2 ^ 64) (hfit : ∀ op ∈ ops, op.Fits) {es : List Entry} (hm : Holds m es)
    (hnew : ∀ e ∈ es, ∀ e' ∈ WriteOp.entries s ops, e.rank ≠ e'.rank) :
    KeepsBytes (w.setSequence s) m heights ops ↔
      (∀ op ∈ ops, op.ZeroFree) ∧ (ops = [] ∨ s + ops.length < 2 ^ 56) := by
  have hw : Encodes (w.setSequence s) s ops := (encodes_build hw).setSequence hs
  constructor
  · intro h
    exact h.zeroFree hw hfit
  · rintro ⟨hzero, hseq⟩
    rcases hseq with rfl | hlt
    · refine ⟨m, [], [], ?_, by simp, rfl, by simp⟩
      rw [WriteBatch.insertAll, hw.count]
      rfl
    · obtain ⟨m', hins, hm', -⟩ := insertAll_of_new heights hw hfit hm hnew hlt
      refine ⟨m', _, (WriteOp.entries s ops).map Entry.memtableKey, hins, ?_, ?_, ?_⟩
      · rw [hm'.nodes, hm.nodes, List.map_append]
      · rw [List.length_map, length_entries]
      · intro i op hi
        have hi' := (List.getElem?_eq_some_iff.1 hi).1
        refine ⟨(op.entry (s + i + 1)).memtableKey, ?_, ?_⟩
        · rw [List.getElem?_map, getElem?_entries, hi]
          rfl
        · rw [hw.sequence]
          exact (stored_entry_iff (hfit op (List.mem_of_getElem? hi))).2
            ⟨hzero op (List.mem_of_getElem? hi), storedSeq_of_lt (by omega)⟩

end Batch

/-- A batch of a `Put` and a `Delete` without zero bytes. -/
theorem insertAll_keeps_bytes_put_delete :
    ∃ w, WriteBatch.build [.put [97] [98], .delete [99]] = .ok w ∧
      KeepsBytes (w.setSequence 5) (.make 0) flatHeights [.put [97] [98], .delete [99]] := by
  have hlen : [WriteOp.put [97] [98], .delete [99]].length < 2 ^ 31 := by decide
  obtain ⟨w, hw⟩ := exists_build hlen
  refine ⟨w, hw, ?_⟩
  exact (insertAll_keeps_bytes_iff flatHeights hw (by decide) (by decide) (Holds.make 0)
    (by simp)).2 (by decide)

/-- The key of one zero byte is stored as the empty key. -/
theorem insertAll_cuts_zero_key :
    ¬ ∀ (ops : List WriteOp) (w : WriteBatch) (s : ℕ) (m : Memtable) (heights : Heights)
      (es : List Entry), WriteBatch.build ops = .ok w → s < 2 ^ 64 → (∀ op ∈ ops, op.Fits) →
        Holds m es → (∀ e ∈ es, ∀ e' ∈ WriteOp.entries s ops, e.rank ≠ e'.rank) →
          KeepsBytes (w.setSequence s) m heights ops := by
  intro h
  have hlen : [WriteOp.put [0] []].length < 2 ^ 31 := by decide
  obtain ⟨w, hw⟩ := exists_build hlen
  have hkeeps := h _ w 0 (.make 0) flatHeights [] hw (by decide) (by decide) (Holds.make 0)
    (by simp)
  have henc := (encodes_build hw).setSequence (n := 0) (by decide)
  exact absurd (hkeeps.zeroFree henc (by decide)).1 (by decide)

end KoishiDB
