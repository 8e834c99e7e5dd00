import KoishiDB.Type.Slice
import KoishiDB.Util.Encode

/-!
# Blocks

`disk/block_builder.cc` and `disk/block_iterator.cc`.  A block is a list of entries, each a key
and a value with its length in front of it.  The comparator is an argument `cmp` that may fault.

The iterator keeps the position of the value it has read and finds the next entry behind it; its
`offset` is a `uint32_t`.  `BlockIterator.Before it a l` says that the iterator stands behind the
entries `a` and in front of the entries `l`; `next_cons` and `next_nil` say what `Next` then does.
`seek_stop` and `seek_end` say where `Seek` comes to.
-/

namespace KoishiDB

/-- A comparator. -/
abbrev Comparator := Slice → Slice → Exec ℤ

/-- `assert(last_key.empty() || cmp->Compare(key, bound) == 1)`. -/
def requireAfter (cmp : Comparator) (key lastKey : Bytes) (bound : Slice) (expr : String) :
    Exec Unit :=
  if lastKey = [] then .ok ()
  else do
    let r ← cmp key bound
    Exec.require (r = 1) expr

theorem requireAfter_eq_ok {cmp : Comparator} {key lastKey : Bytes} {bound : Slice}
    {expr : String} {u : Unit} : requireAfter cmp key lastKey bound expr = .ok u ↔
      lastKey = [] ∨ cmp key bound = .ok 1 := by
  unfold requireAfter
  split_ifs with h
  · simp [h]
  · rw [Exec.bind_eq_ok]
    simp only [Exec.require_eq_ok, h, false_or]
    constructor
    · rintro ⟨r, hr, rfl⟩
      exact hr
    · intro h1
      exact ⟨1, h1, rfl⟩

/-- `class BlockBuilder`. -/
structure BlockBuilder where
  /-- The entries. -/
  rep : Bytes
  /-- The last key added. -/
  lastKey : Bytes
deriving Repr, DecidableEq

/-- The bytes of an entry of a block. -/
def encodeEntry (e : Bytes × Bytes) : Bytes :=
  encodeVarint32 e.1.length ++ e.1 ++ (encodeVarint32 e.2.length ++ e.2)

/-- The bytes of a block. -/
def blockImage (l : List (Bytes × Bytes)) : Bytes := l.flatMap encodeEntry

namespace BlockBuilder

/-- The constructor. -/
def make : BlockBuilder := ⟨[], []⟩

/-- `BlockBuilder::Add`. -/
def add (cmp : Comparator) (b : BlockBuilder) (key value : Bytes) : Exec BlockBuilder := do
  requireAfter cmp key b.lastKey b.lastKey
    "last_key.empty() || opt_->cmp->Compare(key, last_key) == 1"
  return ⟨b.rep ++ encodeEntry (key, value), key⟩

/-- `BlockBuilder::EstimatedSize`. -/
def estimatedSize (b : BlockBuilder) : ℕ := b.rep.length

/-- `BlockBuilder::Empty`. -/
def empty (b : BlockBuilder) : Bool := b.estimatedSize == 0

/-- `BlockBuilder::Finish`. -/
def finish (b : BlockBuilder) : Bytes := b.rep

end BlockBuilder

/-- `class BlockIterator`. -/
structure BlockIterator where
  /-- The block. -/
  data : Bytes
  /-- The offset of the current entry, a `uint32_t`. -/
  offset : ℕ
  /-- The current key. -/
  key : Bytes
  /-- Where the current value starts. -/
  vpos : ℕ
  /-- How long it is. -/
  vlen : ℕ
deriving Repr, DecidableEq

namespace BlockIterator

/-- `BlockIterator::SeekToFirst`: in front of the first entry. -/
def seekToFirst (it : BlockIterator) : BlockIterator := ⟨it.data, 0, [], 0, 0⟩

/-- The constructor. -/
def make (data : Bytes) : BlockIterator := ⟨data, 0, [], 0, 0⟩

/-- `BlockIterator::Valid`. -/
def valid (it : BlockIterator) : Bool := it.offset < it.data.length

/-- `std::string(rest.data(), n)` and `rest.Advance(n)`. -/
def readString (rest : Bytes) (n : ℕ) : Exec (Bytes × Bytes) :=
  if rest.length < n then .error .outOfBounds else .ok (rest.take n, rest.drop n)

/-- The second half of `Next`: the entry at the offset. -/
def readEntry (it : BlockIterator) : Exec BlockIterator := do
  let (internalKeyLen, restEntries) ← getVarint32 (it.data.drop it.offset)
  let (key, restEntries) ← readString restEntries internalKeyLen
  let (valueLen, restEntries) ← getVarint32 restEntries
  return { it with key := key, vpos := it.data.length - restEntries.length, vlen := valueLen }

/-- The iterator with its offset behind the value it has read. -/
def skipValue (it : BlockIterator) : BlockIterator := { it with offset := u32 (it.vpos + it.vlen) }

/-- `BlockIterator::Next`. -/
def next (it : BlockIterator) : Exec BlockIterator :=
  if !it.skipValue.valid then .ok it.skipValue else it.skipValue.readEntry

/-- `BlockIterator::Value`, with the bytes read. -/
def value (it : BlockIterator) : Exec Bytes :=
  if it.vpos + it.vlen ≤ it.data.length then .ok ((it.data.drop it.vpos).take it.vlen)
  else .error .outOfBounds

/-- The loop of `Seek`. -/
def seekLoop (cmp : Comparator) (target : Bytes) : ℕ → BlockIterator → Exec BlockIterator
  | 0, _ => .error .diverges
  | fuel + 1, it =>
    if !it.valid then .ok it
    else do
      let r ← cmp it.key target
      if r = -1 then do
        let it ← it.next
        seekLoop cmp target fuel it
      else return it

/-- `BlockIterator::Seek`; a loop that ends goes forward in the block with every round. -/
def seek (cmp : Comparator) (it : BlockIterator) (target : Bytes) : Exec (BlockIterator × Bool) := do
  let it ← it.seekToFirst.next
  let it ← seekLoop cmp target (it.data.length + 1) it
  if !it.valid then return (it, false)
  let r ← cmp it.key target
  return (it, r == 0)

end BlockIterator

/-! ### The bytes of a block -/

theorem blockImage_append (a b : List (Bytes × Bytes)) :
    blockImage (a ++ b) = blockImage a ++ blockImage b :=
  List.flatMap_append

@[simp] theorem blockImage_nil : blockImage [] = [] := rfl

@[simp] theorem blockImage_cons (e : Bytes × Bytes) (l : List (Bytes × Bytes)) :
    blockImage (e :: l) = encodeEntry e ++ blockImage l :=
  List.flatMap_cons

theorem length_encodeEntry (e : Bytes × Bytes) : (encodeEntry e).length =
    (encodeVarint32 e.1.length).length + e.1.length +
      ((encodeVarint32 e.2.length).length + e.2.length) := by
  simp only [encodeEntry, List.length_append]

theorem two_le_length_encodeEntry (e : Bytes × Bytes) : 2 ≤ (encodeEntry e).length := by
  have h1 := length_encodeVarint32_pos e.1.length
  have h2 := length_encodeVarint32_pos e.2.length
  rw [length_encodeEntry]
  omega

theorem length_encodeEntry_le (e : Bytes × Bytes) :
    (encodeEntry e).length ≤ e.1.length + e.2.length + 10 := by
  have h1 := length_encodeVarint32_le e.1.length
  have h2 := length_encodeVarint32_le e.2.length
  rw [length_encodeEntry]
  omega

theorem two_mul_length_le (l : List (Bytes × Bytes)) : 2 * l.length ≤ (blockImage l).length := by
  induction l with
  | nil => simp
  | cons e l ih =>
    have := two_le_length_encodeEntry e
    rw [blockImage_cons, List.length_append, List.length_cons]
    omega

theorem length_blockImage_le {a l : List (Bytes × Bytes)} (h : a <+: l) :
    (blockImage a).length ≤ (blockImage l).length := by
  obtain ⟨b, rfl⟩ := h
  rw [blockImage_append, List.length_append]
  exact Nat.le_add_right _ _

/-! ### Iterating -/

namespace BlockIterator

/-- The iterator stands behind the entries `a` and in front of the entries `l`. -/
structure Before (it : BlockIterator) (a l : List (Bytes × Bytes)) : Prop where
  data_eq : it.data = blockImage (a ++ l)
  pos_eq : it.vpos + it.vlen = (blockImage a).length

theorem before_make (l : List (Bytes × Bytes)) : (make (blockImage l)).Before [] l := ⟨rfl, rfl⟩

/-- Both lengths of the entry are read back as they are. -/
def EntryFits (e : Bytes × Bytes) : Prop := e.1.length < 2 ^ 32 ∧ e.2.length < 2 ^ 32

/-- The lengths of the entries, when the block is shorter than `2 ^ 32` bytes. -/
theorem fits_of_image_lt {l : List (Bytes × Bytes)} (h : (blockImage l).length < 2 ^ 32) :
    ∀ e ∈ l, EntryFits e := by
  intro e he
  obtain ⟨a, c, rfl⟩ := List.append_of_mem he
  rw [blockImage_append, blockImage_cons, List.length_append, List.length_append,
    length_encodeEntry] at h
  unfold EntryFits
  omega

theorem Before.offset_skipValue {it : BlockIterator} {a l : List (Bytes × Bytes)}
    (h : it.Before a l) : it.skipValue.offset = u32 (blockImage a).length := by
  rw [skipValue, h.pos_eq]

/-- `Next` at the end of a block only moves the offset. -/
theorem next_nil {it : BlockIterator} {a : List (Bytes × Bytes)} (h : it.Before a [])
    (hlt : (blockImage a).length < 2 ^ 32) :
    it.next = .ok it.skipValue ∧ it.skipValue.valid = false := by
  have hd : it.data.length = (blockImage a).length := by rw [h.data_eq, List.append_nil]
  have hv : it.skipValue.valid = false := by
    simp only [valid, h.offset_skipValue, u32_of_lt hlt, decide_eq_false_iff_not, not_lt]
    exact hd.le
  exact ⟨by simp [next, hv], hv⟩

theorem readString_append (s rest : Bytes) : readString (s ++ rest) s.length = .ok (s, rest) := by
  simp [readString]

/-- `Next` in front of an entry reads it. -/
theorem next_cons {it : BlockIterator} {a l : List (Bytes × Bytes)} {e : Bytes × Bytes}
    (h : it.Before a (e :: l)) (hlt : (blockImage a).length < 2 ^ 32) (he : EntryFits e) :
    ∃ it', it.next = .ok it' ∧ it'.Before (a ++ [e]) l ∧ it'.valid = true ∧ it'.key = e.1 ∧
      it'.value = .ok e.2 := by
  obtain ⟨k, v⟩ := e
  have hdata : it.data = blockImage a ++ (encodeVarint32 k.length ++ (k ++
      (encodeVarint32 v.length ++ (v ++ blockImage l)))) := by
    rw [h.data_eq, blockImage_append, blockImage_cons]
    simp only [encodeEntry, List.append_assoc]
  have hlen := congrArg List.length hdata
  simp only [List.length_append] at hlen
  have hpos := length_encodeVarint32_pos k.length
  -- the offset is in front of the entry, and the iterator finds the value from the end of the block
  have hoff : it.skipValue.offset = (blockImage a).length := by
    rw [h.offset_skipValue, u32_of_lt hlt]
  have hvalid : it.skipValue.valid = true := by
    simp only [valid, hoff, decide_eq_true_eq]
    change (blockImage a).length < it.data.length
    omega
  have hdrop : it.data.drop (blockImage a).length = encodeVarint32 k.length ++ (k ++
      (encodeVarint32 v.length ++ (v ++ blockImage l))) := by
    rw [hdata]; exact List.drop_left' rfl
  have hvpos : it.data.length - (v ++ blockImage l).length =
      (blockImage a).length + ((encodeVarint32 k.length).length + k.length +
        (encodeVarint32 v.length).length) := by
    rw [List.length_append]; omega
  have hread : it.skipValue.readEntry = .ok ⟨it.data, (blockImage a).length, k,
      it.data.length - (v ++ blockImage l).length, v.length⟩ := by
    have hd : it.skipValue.data = it.data := rfl
    simp only [readEntry, hoff, hd, hdrop, getVarint32_encode he.1, readString_append,
      getVarint32_encode he.2, Exec.ok_bind, Exec.pure_eq]
  have hvalid' : (⟨it.data, (blockImage a).length, k, it.data.length - (v ++ blockImage l).length,
      v.length⟩ : BlockIterator).valid = true := by
    rw [← hvalid, valid, valid, hoff]; rfl
  refine ⟨_, by simp only [next, hvalid, Bool.not_true, Bool.false_eq_true, ↓reduceIte, hread],
    ⟨?_, ?_⟩, hvalid', rfl, ?_⟩
  · change it.data = _
    rw [h.data_eq, List.append_assoc]; rfl
  · change it.data.length - (v ++ blockImage l).length + v.length = _
    rw [hvpos, blockImage_append, blockImage_cons, blockImage_nil, List.append_nil,
      List.length_append, length_encodeEntry]
    dsimp only
    omega
  · have hvd : it.data.drop ((blockImage a).length + ((encodeVarint32 k.length).length + k.length +
        (encodeVarint32 v.length).length)) = v ++ blockImage l := by
      rw [hdata]
      simp only [← List.append_assoc]
      rw [List.append_assoc _ v]
      exact List.drop_left' (by simp only [List.length_append]; omega)
    simp only [value, hvpos]
    rw [if_pos (by omega), hvd, List.take_left' rfl]

/-- What `Next` does on any bytes: it comes to the end of the block, or it reads the lengths and the
key of an entry, which are inside the block. -/
theorem next_cases {it it' : BlockIterator} (h : it.next = .ok it') :
    (it.skipValue.valid = false ∧ it' = it.skipValue) ∨
    (it.skipValue.valid = true ∧ it'.data = it.data ∧ it'.offset = it.skipValue.offset ∧
      it'.offset < it'.vpos ∧ it'.vpos ≤ it.data.length ∧ it'.key.length < 2 ^ 32 ∧
      it'.vlen < 2 ^ 32) := by
  unfold next at h
  split at h
  · rename_i hv
    cases h
    exact .inl ⟨by simpa using hv, rfl⟩
  · rename_i hv
    obtain ⟨⟨keyLen, r₁⟩, hk, h⟩ := Exec.bind_eq_ok.1 h
    obtain ⟨⟨key, r₂⟩, hs, h⟩ := Exec.bind_eq_ok.1 h
    obtain ⟨⟨valueLen, r₃⟩, hvl, h⟩ := Exec.bind_eq_ok.1 h
    cases h
    have hvalid : it.skipValue.valid = true := by simpa using hv
    have hoffset : it.skipValue.offset < it.data.length := of_decide_eq_true hvalid
    obtain ⟨hkeyLen, hr₁⟩ := getVarint32_bounds hk
    obtain ⟨hvalueLen, hr₃⟩ := getVarint32_bounds hvl
    have hdata : it.skipValue.data.length = it.data.length := rfl
    rw [List.length_drop, hdata] at hr₁
    unfold readString at hs
    split at hs
    · cases hs
    · cases hs
      have hkey := List.length_take_le keyLen r₁
      rw [List.length_drop] at hr₃
      refine .inr ⟨hvalid, rfl, rfl, ?_, ?_, hkey.trans_lt hkeyLen, hvalueLen⟩
      · change it.skipValue.offset < it.data.length - r₃.length
        omega
      · exact Nat.sub_le _ _

/-- `Next` stays in its block, and its offset has 32 bits. -/
theorem next_frame {it it' : BlockIterator} (h : it.next = .ok it') :
    it'.data = it.data ∧ it'.offset = it.skipValue.offset := by
  rcases next_cases h with ⟨-, rfl⟩ | ⟨-, hdata, hoffset, -⟩
  · exact ⟨rfl, rfl⟩
  · exact ⟨hdata, hoffset⟩

/-- An iterator over a block of `2 ^ 32` bytes or more is never at its end. -/
theorem next_valid_of_le {it it' : BlockIterator} (h : it.next = .ok it')
    (hle : 2 ^ 32 ≤ it.data.length) : it'.valid = true := by
  obtain ⟨hd, ho⟩ := next_frame h
  have : u32 (it.vpos + it.vlen) < 2 ^ 32 := Nat.mod_lt _ (by decide)
  rw [valid, hd, ho, decide_eq_true_eq]
  change u32 (it.vpos + it.vlen) < it.data.length
  omega

/-- The keys and values that an iterator gives out have lengths of 32 bits. -/
theorem next_lengths {it it' : BlockIterator} (h : it.next = .ok it') (hv : it'.valid = true) :
    it'.key.length < 2 ^ 32 ∧ it'.vlen < 2 ^ 32 := by
  rcases next_cases h with ⟨hn, rfl⟩ | ⟨-, -, -, -, -, hkey, hvlen⟩
  · rw [hv] at hn
    cases hn
  · exact ⟨hkey, hvlen⟩

/-- All that can go wrong in `Next` is a read behind the end of the block. -/
theorem next_error {it : BlockIterator} {e : Fault} (h : it.next = .error e) :
    e = .outOfBounds := by
  unfold next at h
  split at h
  · cases h
  · rcases Exec.bind_eq_error.1 h with h | ⟨⟨keyLen, r₁⟩, -, h⟩
    · exact getVarint32_error h
    rcases Exec.bind_eq_error.1 h with h | ⟨⟨key, r₂⟩, -, h⟩
    · unfold readString at h
      split at h
      · cases h; rfl
      · cases h
    rcases Exec.bind_eq_error.1 h with h | ⟨⟨valueLen, r₃⟩, -, h⟩
    · exact getVarint32_error h
    · cases h

/-! ### Seeking -/

/-- The iterator has read the entry `e`, which stands between the entries `a` and `b`. -/
structure On (it : BlockIterator) (a : List (Bytes × Bytes)) (e : Bytes × Bytes)
    (b : List (Bytes × Bytes)) : Prop where
  before : it.Before (a ++ [e]) b
  valid : it.valid = true
  key_eq : it.key = e.1
  value_eq : it.value = .ok e.2

theorem Before.next_on {it : BlockIterator} {a l : List (Bytes × Bytes)} {e : Bytes × Bytes}
    (h : it.Before a (e :: l)) (hlt : (blockImage a).length < 2 ^ 32) (he : EntryFits e) :
    ∃ it', it.next = .ok it' ∧ it'.On a e l := by
  obtain ⟨it', hn, hb, hv, hk, hval⟩ := next_cons h hlt he
  exact ⟨it', hn, hb, hv, hk, hval⟩

variable {cmp : Comparator} {target : Bytes} {x e : Bytes × Bytes}
  {a m b rest l : List (Bytes × Bytes)}
  {it : BlockIterator} {fuel : ℕ} {c : ℤ}

/-- The loop of `Seek` passes the entries that compare as smaller and stops at the first that does
not.  What stands behind that entry does not matter. -/
theorem seekLoop_stop (hon : it.On a x rest) (hsplit : x :: rest = m ++ e :: b)
    (hskip : ∀ y ∈ m, cmp y.1 target = .ok (-1)) (hstop : cmp e.1 target = .ok c) (hc : c ≠ -1)
    (hlt : (blockImage (a ++ m)).length < 2 ^ 32) (hfits : ∀ y ∈ m ++ [e], EntryFits y)
    (hfuel : m.length < fuel) :
    ∃ it', seekLoop cmp target fuel it = .ok it' ∧ it'.On (a ++ m) e b := by
  -- by induction on the entries passed
  induction m generalizing a x rest it fuel with
  | nil =>
    obtain ⟨rfl, rfl⟩ := List.cons.inj hsplit
    obtain ⟨fuel, rfl⟩ := Nat.exists_eq_succ_of_ne_zero hfuel.ne'
    refine ⟨it, ?_, by rwa [List.append_nil]⟩
    simp [seekLoop, hon.valid, hon.key_eq, hstop, hc]
  | cons y m ih =>
    obtain ⟨rfl, hrest⟩ := List.cons.inj hsplit
    obtain ⟨fuel, rfl⟩ := Nat.exists_eq_succ_of_ne_zero (Nat.ne_zero_of_lt hfuel)
    obtain ⟨hx, hskip⟩ := List.forall_mem_cons.1 hskip
    have happ : a ++ x :: m = a ++ [x] ++ m := by simp
    rw [happ] at hlt ⊢
    obtain ⟨z, rest', rfl⟩ : ∃ z rest', rest = z :: rest' := by
      cases m with
      | nil => exact ⟨e, b, hrest⟩
      | cons z m => exact ⟨z, m ++ e :: b, hrest⟩
    have hz : EntryFits z := by
      cases m with
      | nil =>
        obtain ⟨rfl, -⟩ := List.cons.inj hrest
        exact hfits z (by simp)
      | cons z' m =>
        obtain ⟨rfl, -⟩ := List.cons.inj hrest
        exact hfits z (by simp)
    obtain ⟨it₁, hn, hon₁⟩ := hon.before.next_on
      ((length_blockImage_le (List.prefix_append _ m)).trans_lt hlt) hz
    obtain ⟨it', hloop, hon'⟩ := ih hon₁ hrest hskip hlt
      (fun y hy => hfits y (by simp only [List.cons_append, List.mem_cons]; exact .inr hy))
      (by simpa using hfuel)
    refine ⟨it', ?_, hon'⟩
    simp only [seekLoop, hon.valid, Bool.not_true, Bool.false_eq_true, ↓reduceIte, hon.key_eq, hx,
      Exec.ok_bind, hn, hloop]

/-- The loop of `Seek` comes to the end of a block of entries that all compare as smaller, with the
value of the last one in hand. -/
theorem seekLoop_end (hon : it.On a x rest)
    (hskip : ∀ y ∈ x :: rest, cmp y.1 target = .ok (-1))
    (hlt : (blockImage (a ++ x :: rest)).length < 2 ^ 32) (hfits : ∀ y ∈ rest, EntryFits y)
    (hfuel : rest.length + 2 ≤ fuel) :
    ∃ it', seekLoop cmp target fuel it = .ok it' ∧ it'.valid = false ∧
      it'.Before (a ++ x :: rest) [] ∧ ∃ y ∈ (x :: rest).getLast?, it'.value = .ok y.2 := by
  induction rest generalizing a x it fuel with
  | nil =>
    obtain ⟨fuel, rfl⟩ : ∃ n, fuel = n + 2 := ⟨fuel - 2, by simp at hfuel; omega⟩
    obtain ⟨hn, hnv⟩ := next_nil hon.before hlt
    refine ⟨it.skipValue, ?_, hnv, ⟨hon.before.data_eq, hon.before.pos_eq⟩, x, rfl, hon.value_eq⟩
    simp [seekLoop, hon.valid, hon.key_eq, hskip x List.mem_cons_self, hn, hnv]
  | cons z rest ih =>
    obtain ⟨fuel, rfl⟩ : ∃ n, fuel = n + 1 := ⟨fuel - 1, by simp at hfuel; omega⟩
    obtain ⟨hx, hskip⟩ := List.forall_mem_cons.1 hskip
    obtain ⟨hz, hfits⟩ := List.forall_mem_cons.1 hfits
    have happ : a ++ x :: z :: rest = a ++ [x] ++ z :: rest := by simp
    rw [happ] at hlt ⊢
    obtain ⟨it₁, hn, hon₁⟩ := hon.before.next_on
      ((length_blockImage_le (List.prefix_append _ _)).trans_lt hlt) hz
    obtain ⟨it', hloop, hv, hb, y, hy, hval⟩ := ih hon₁ hskip hlt hfits (by simp at hfuel; omega)
    refine ⟨it', ?_, hv, hb, y, by rwa [List.getLast?_cons_cons], hval⟩
    simp only [seekLoop, hon.valid, Bool.not_true, Bool.false_eq_true, ↓reduceIte, hon.key_eq, hx,
      Exec.ok_bind, hn, hloop]

/-- `Seek` starts at the first entry, with enough fuel for all of them. -/
theorem seek_first (hdata : it.data = blockImage (x :: rest)) (hx : EntryFits x) :
    ∃ it₁ : BlockIterator, it.seekToFirst.next = .ok it₁ ∧ it₁.On [] x rest ∧
      rest.length + 2 ≤ it₁.data.length + 1 := by
  have hb : it.seekToFirst.Before [] (x :: rest) := ⟨hdata, rfl⟩
  obtain ⟨it₁, hn, hon⟩ := hb.next_on (by simp) hx
  refine ⟨it₁, hn, hon, ?_⟩
  have hsize := two_mul_length_le (x :: rest)
  rw [hon.before.data_eq]
  simp only [List.nil_append, List.singleton_append, List.length_cons] at hsize ⊢
  omega

/-- **`Seek` stops at the first entry that does not compare as smaller**, and returns whether it
compares as equal. -/
theorem seek_stop (hdata : it.data = blockImage (m ++ e :: b))
    (hskip : ∀ y ∈ m, cmp y.1 target = .ok (-1)) (hstop : cmp e.1 target = .ok c) (hc : c ≠ -1)
    (hlt : (blockImage m).length < 2 ^ 32) (hfits : ∀ y ∈ m ++ [e], EntryFits y) :
    ∃ it', it.seek cmp target = .ok (it', c == 0) ∧ it'.On m e b := by
  obtain ⟨x, rest, hsplit⟩ : ∃ x rest, x :: rest = m ++ e :: b := by
    cases m with
    | nil => exact ⟨e, b, rfl⟩
    | cons x m => exact ⟨x, m ++ e :: b, rfl⟩
  have hx : EntryFits x := by
    cases m with
    | nil =>
      obtain ⟨rfl, -⟩ := List.cons.inj hsplit
      exact hfits x (by simp)
    | cons x' m =>
      obtain ⟨rfl, -⟩ := List.cons.inj hsplit
      exact hfits x (by simp)
  rw [← hsplit] at hdata
  obtain ⟨it₁, hn, hon, hfuel⟩ := seek_first hdata hx
  have hlen : m.length < it₁.data.length + 1 := by
    have := congrArg List.length hsplit
    simp only [List.length_cons, List.length_append] at this
    omega
  obtain ⟨it', hloop, hon'⟩ := seekLoop_stop hon hsplit hskip hstop hc hlt hfits hlen
  refine ⟨it', ?_, hon'⟩
  simp [seek, hn, hloop, hon'.valid, hon'.key_eq, hstop]

/-- **`Seek` behind all entries** returns false and comes to the end of the block, with the value of
the last entry in hand. -/
theorem seek_end (hdata : it.data = blockImage l) (hne : l ≠ [])
    (hskip : ∀ y ∈ l, cmp y.1 target = .ok (-1)) (hlt : (blockImage l).length < 2 ^ 32)
    (hfits : ∀ y ∈ l, EntryFits y) :
    ∃ it', it.seek cmp target = .ok (it', false) ∧ it'.valid = false ∧ it'.Before l [] ∧
      ∃ y ∈ l.getLast?, it'.value = .ok y.2 := by
  obtain ⟨x, rest, rfl⟩ := List.exists_cons_of_ne_nil hne
  obtain ⟨hx, hrest⟩ := List.forall_mem_cons.1 hfits
  obtain ⟨it₁, hn, hon, hfuel⟩ := seek_first hdata hx
  obtain ⟨it', hloop, hv, hb, hval⟩ := seekLoop_end hon hskip hlt hrest hfuel
  exact ⟨it', by simp [seek, hn, hloop, hv], hv, hb, hval⟩

/-- All entries compare as smaller, or there is a first one that does not. -/
theorem smaller_or_first (hcmp : ∀ y ∈ l, ∃ c, cmp y.1 target = .ok c) :
    (∀ y ∈ l, cmp y.1 target = .ok (-1)) ∨
      ∃ m e b c, l = m ++ e :: b ∧ (∀ y ∈ m, cmp y.1 target = .ok (-1)) ∧
        cmp e.1 target = .ok c ∧ c ≠ -1 := by
  induction l with
  | nil => exact .inl (by simp)
  | cons x l ih =>
    obtain ⟨⟨c, hc⟩, hl⟩ := List.forall_mem_cons.1 hcmp
    by_cases h1 : c = -1
    · rcases ih hl with hall | ⟨m, e, b, c', rfl, hm, he⟩
      · exact .inl (List.forall_mem_cons.2 ⟨h1 ▸ hc, hall⟩)
      · exact .inr ⟨x :: m, e, b, c', rfl, List.forall_mem_cons.2 ⟨h1 ▸ hc, hm⟩, he⟩
    · exact .inr ⟨[], x, l, c, rfl, by simp, hc, h1⟩

/-- **`Seek`** in a block without a key equal to the target returns false, with the value of some
entry of the block in hand. -/
theorem seek_absent (hdata : it.data = blockImage l) (hne : l ≠ [])
    (hlt : (blockImage l).length < 2 ^ 32) (hfits : ∀ e ∈ l, EntryFits e)
    (hcmp : ∀ e ∈ l, ∃ c, cmp e.1 target = .ok c ∧ c ≠ 0) :
    ∃ it', it.seek cmp target = .ok (it', false) ∧ ∃ e ∈ l, it'.value = .ok e.2 := by
  rcases smaller_or_first fun y hy => (hcmp y hy).imp fun c h => h.1 with
    hall | ⟨m, e, b, c, rfl, hm, hstop, hc⟩
  · obtain ⟨it', hseek, -, -, y, hy, hval⟩ := seek_end hdata hne hall hlt hfits
    exact ⟨it', hseek, y, List.mem_of_getLast? hy, hval⟩
  · obtain ⟨c', hc', h0⟩ := hcmp e (by simp)
    cases hstop.symm.trans hc'
    obtain ⟨it', hseek, hon⟩ := seek_stop hdata hm hstop hc
      ((length_blockImage_le (List.prefix_append m _)).trans_lt hlt)
      (fun y hy => hfits y (by simp only [List.mem_append, List.mem_cons] at hy ⊢; tauto))
    rw [beq_false_of_ne h0] at hseek
    exact ⟨it', hseek, e, by simp, hon.value_eq⟩

end BlockIterator

end KoishiDB
