import KoishiDB.Disk.Block
import KoishiDB.Type.Key

/-!
# Scanning a block

What `BlockIterator` makes of a whole block: of one that `BlockBuilder` has written, and of any
bytes at all.

* `BlockBuilder.round_trip` : the entries added are the entries read.
* `BlockIterator.seek_lower_bound` : `Seek` comes to the first entry that is not smaller than the
  target.
* `BlockIterator.scanEnds_iff` : on any bytes, `Next` goes forward exactly as long as no value
  length carries the 32-bit offset around to the start of its own entry, or in front of it.
-/

namespace KoishiDB

/-! ### The round trip -/

namespace BlockBuilder

/-- The `Add` calls for a list of entries. -/
def addAll (cmp : Comparator) : BlockBuilder → List (Bytes × Bytes) → Exec BlockBuilder
  | b, [] => .ok b
  | b, e :: l => do
    let b ← b.add cmp e.1 e.2
    b.addAll cmp l

/-- No assertion fails, and the bytes of the entries are appended. -/
theorem addAll_of_sorted {cmp : Comparator} {b : BlockBuilder} {l : List (Bytes × Bytes)}
    (hfirst : ∀ e ∈ l.head?, b.lastKey = [] ∨ cmp e.1 b.lastKey = .ok 1)
    (hsorted : l.IsChain fun e e' => cmp e'.1 e.1 = .ok 1) :
    ∃ b', b.addAll cmp l = .ok b' ∧ b'.finish = b.rep ++ blockImage l := by
  induction l generalizing b with
  | nil => exact ⟨b, rfl, by simp [finish]⟩
  | cons e l ih =>
    have hadd : b.add cmp e.1 e.2 = .ok ⟨b.rep ++ encodeEntry e, e.1⟩ := by
      have hreq : requireAfter cmp e.1 b.lastKey b.lastKey
          "last_key.empty() || opt_->cmp->Compare(key, last_key) == 1" = .ok () :=
        requireAfter_eq_ok.2 (hfirst e rfl)
      simp only [add, hreq, Exec.ok_bind, Exec.pure_eq]
    have hnext : ∀ e' ∈ l.head?, e.1 = [] ∨ cmp e'.1 e.1 = .ok 1 := by
      intro e' he'
      cases l with
      | nil => cases he'
      | cons x l =>
        cases he'
        exact .inr (List.isChain_cons_cons.1 hsorted).1
    obtain ⟨b', hb', hrep⟩ := ih (b := ⟨b.rep ++ encodeEntry e, e.1⟩) hnext hsorted.of_cons
    refine ⟨b', ?_, ?_⟩
    · simp only [addAll, hadd, Exec.ok_bind, hb']
    · rw [hrep, blockImage_cons, List.append_assoc]

end BlockBuilder

namespace BlockIterator

/-- `n` calls of `Next`. -/
def nexts (it : BlockIterator) : ℕ → Exec BlockIterator
  | 0 => .ok it
  | n + 1 => do
    let it ← it.nexts n
    it.next

/-- The iterator in front of the first entry visits exactly the entries of `l`: the `n`-th `Next`
call comes to the `n`-th entry, and from the call behind the last entry on it is not valid. -/
structure Iterates (it₀ : BlockIterator) (l : List (Bytes × Bytes)) : Prop where
  visits : ∀ (n : ℕ) (e : Bytes × Bytes), l[n]? = some e → ∃ it, it₀.nexts (n + 1) = .ok it ∧
    it.valid = true ∧ it.key = e.1 ∧ it.value = .ok e.2
  ends : ∀ n, l.length ≤ n → ∃ it, it₀.nexts (n + 1) = .ok it ∧ it.valid = false

variable {it it' : BlockIterator} {a l : List (Bytes × Bytes)} {e : Bytes × Bytes} {n : ℕ}
  {data : Bytes}

/-- At the end of the block the iterator stays where it is. -/
theorem Before.skipValue (h : it.Before a l) : it.skipValue.Before a l := ⟨h.data_eq, h.pos_eq⟩

/-- After any number of `Next` calls the iterator is behind as many entries. -/
theorem Before.nexts (h : it.Before [] l) (hlt : (blockImage l).length < 2 ^ 32) (n : ℕ) :
    ∃ it', it.nexts n = .ok it' ∧ it'.Before (l.take n) (l.drop n) := by
  induction n with
  | zero => exact ⟨it, rfl, h⟩
  | succ n ih =>
    obtain ⟨it₁, hn₁, hb₁⟩ := ih
    have htake : (blockImage (l.take n)).length < 2 ^ 32 :=
      (length_blockImage_le (List.take_prefix n l)).trans_lt hlt
    cases hdrop : l.drop n with
    | nil =>
      rw [hdrop] at hb₁
      have hlen : l.length ≤ n := List.drop_eq_nil_iff.1 hdrop
      refine ⟨it₁.skipValue, ?_, ?_⟩
      · rw [BlockIterator.nexts, hn₁, Exec.ok_bind, (next_nil hb₁ htake).1]
      · rw [List.take_of_length_le (by omega), List.drop_eq_nil_of_le (by omega)]
        rw [List.take_of_length_le hlen] at hb₁
        exact hb₁.skipValue
    | cons e rest =>
      rw [hdrop] at hb₁
      have hmem : e ∈ l := List.mem_of_mem_drop (hdrop ▸ List.mem_cons_self)
      obtain ⟨it', hn, hon⟩ := hb₁.next_on htake (fits_of_image_lt hlt e hmem)
      refine ⟨it', ?_, ?_⟩
      · rw [BlockIterator.nexts, hn₁, Exec.ok_bind, hn]
      · have hget : l[n]? = some e := by
          rw [← List.head?_drop, hdrop, List.head?_cons]
        rw [List.take_add_one, hget, ← List.tail_drop, hdrop]
        exact hon.before

theorem Before.iterates (h : it.Before [] l) (hlt : (blockImage l).length < 2 ^ 32) :
    it.Iterates l := by
  constructor
  · intro n e he
    obtain ⟨it₁, hn₁, hb₁⟩ := h.nexts hlt n
    have htake : (blockImage (l.take n)).length < 2 ^ 32 :=
      (length_blockImage_le (List.take_prefix n l)).trans_lt hlt
    obtain ⟨hlen, rfl⟩ := List.getElem?_eq_some_iff.1 he
    rw [List.drop_eq_getElem_cons hlen] at hb₁
    obtain ⟨it', hn, hon⟩ := hb₁.next_on htake (fits_of_image_lt hlt _ (List.getElem_mem hlen))
    exact ⟨it', by rw [BlockIterator.nexts, hn₁, Exec.ok_bind, hn], hon.valid, hon.key_eq,
      hon.value_eq⟩
  · intro n hn
    obtain ⟨it₁, hn₁, hb₁⟩ := h.nexts hlt n
    rw [List.take_of_length_le hn, List.drop_eq_nil_of_le hn] at hb₁
    obtain ⟨hnext, hvalid⟩ := next_nil hb₁ hlt
    exact ⟨it₁.skipValue, by rw [BlockIterator.nexts, hn₁, Exec.ok_bind, hnext], hvalid⟩

end BlockIterator

/-- **The round trip of a block.**  For every comparator and every list of pairs whose keys increase
strictly and whose encoding is shorter than `2 ^ 32` bytes: all `Add` calls return, and the iterator
over the finished block visits exactly the pairs, in order, and is not valid from then on. -/
theorem BlockBuilder.round_trip {cmp : Comparator} {l : List (Bytes × Bytes)}
    (hsorted : l.IsChain fun e e' => cmp e'.1 e.1 = .ok 1) (hlt : (blockImage l).length < 2 ^ 32) :
    ∃ b, BlockBuilder.make.addAll cmp l = .ok b ∧
      (BlockIterator.make b.finish).seekToFirst.Iterates l := by
  obtain ⟨b, hb, hrep⟩ := addAll_of_sorted (b := make) (fun _ _ => .inl rfl) hsorted
  refine ⟨b, hb, BlockIterator.Before.iterates ⟨?_, rfl⟩ hlt⟩
  change b.finish = _
  rw [hrep]
  rfl

/-- A block of two internal keys, the first with an empty value. -/
theorem BlockBuilder.round_trip_two_keys :
    ∃ b, BlockBuilder.make.addAll internalKeyCompare
        [(createInternalKey [97] 2 .kTypeValue, []), (createInternalKey [97] 1 .kTypeValue, [0])] =
          .ok b ∧
      (BlockIterator.make b.finish).seekToFirst.Iterates
        [(createInternalKey [97] 2 .kTypeValue, []),
          (createInternalKey [97] 1 .kTypeValue, [0])] :=
  BlockBuilder.round_trip (by simp only [List.isChain_cons_cons]; decide) (by decide)

/-! ### The lower bound -/

namespace BlockIterator

/-- Where `Seek` comes to and what it returns: at the first entry that does not compare as smaller
than the target, true if it compares as equal; or at no entry, false, if all compare as smaller. -/
inductive AtLowerBound (cmp : Comparator) (l : List (Bytes × Bytes)) (target : Bytes)
    (it : BlockIterator) (found : Bool) : Prop where
  | entry (a : List (Bytes × Bytes)) (e : Bytes × Bytes) (b : List (Bytes × Bytes))
      (split : l = a ++ e :: b) (on : it.On a e b)
      (smaller : ∀ y ∈ a, cmp y.1 target = .ok (-1))
      (not_smaller : ∀ y ∈ e :: b, cmp y.1 target = .ok 0 ∨ cmp y.1 target = .ok 1)
      (found_iff : found = true ↔ cmp e.1 target = .ok 0)
  | behind (smaller : ∀ y ∈ l, cmp y.1 target = .ok (-1)) (invalid : it.valid = false)
      (not_found : found = false)

variable {it : BlockIterator} {l : List (Bytes × Bytes)} {target : Bytes}

/-- `Seek` in an empty block. -/
theorem seek_nil (cmp : Comparator) (target : Bytes) (hdata : it.data = []) :
    ∃ it', it.seek cmp target = .ok (it', false) ∧ it'.valid = false := by
  have hv : it.seekToFirst.skipValue.valid = false := by
    simp [valid, skipValue, seekToFirst, hdata]
  have hnext : it.seekToFirst.next = .ok it.seekToFirst.skipValue := by simp [next, hv]
  refine ⟨it.seekToFirst.skipValue, ?_, hv⟩
  simp only [seek, hnext, Exec.ok_bind, seekLoop, hv, Bool.not_false, ↓reduceIte, Exec.pure_eq]

/-- **`Seek` is a lower bound.**  For every block of internal keys in strictly increasing order,
every target and every position that the iterator is in before: `Seek` returns, and is then at the
first entry that is not smaller than the target, or at the end if there is none; it returns true
exactly if that entry compares as equal. -/
theorem seek_lower_bound (hkeys : ∀ e ∈ l, 8 ≤ e.1.length)
    (hsorted : l.IsChain fun e e' => internalKeyCompare e.1 e'.1 = .ok (-1))
    (hlt : (blockImage l).length < 2 ^ 32) (hdata : it.data = blockImage l)
    (htarget : 8 ≤ target.length) :
    ∃ it' found, it.seek internalKeyCompare target = .ok (it', found) ∧
      AtLowerBound internalKeyCompare l target it' found := by
  have hpair := pairwise_of_isChain hkeys hsorted
  have hcmp : ∀ y ∈ l, ∃ c, internalKeyCompare y.1 target = .ok c := fun y hy =>
    ⟨_, internalKeyCompare_eq (hkeys y hy) htarget⟩
  rcases smaller_or_first hcmp with hall | ⟨a, e, b, c, rfl, hskip, hstop, hc⟩
  · by_cases hne : l = []
    · obtain ⟨it', hseek, hv⟩ := seek_nil internalKeyCompare target
        (show it.data = [] by rw [hdata, hne]; rfl)
      exact ⟨it', false, hseek, .behind hall hv rfl⟩
    · obtain ⟨it', hseek, hv, -⟩ := seek_end hdata hne hall hlt (fits_of_image_lt hlt)
      exact ⟨it', false, hseek, .behind hall hv rfl⟩
  · have hfront : (blockImage a).length < 2 ^ 32 :=
      (length_blockImage_le (List.prefix_append a _)).trans_lt hlt
    have hmem : ∀ y ∈ a ++ [e], y ∈ a ++ e :: b := by
      intro y hy
      simp only [List.mem_append, List.mem_cons, List.not_mem_nil, or_false] at hy ⊢
      tauto
    obtain ⟨it', hseek, hon⟩ := seek_stop hdata hskip hstop hc hfront
      fun y hy => fits_of_image_lt hlt y (hmem y hy)
    have hrange : c = 0 ∨ c = 1 := by
      have heq := hstop.symm.trans (internalKeyCompare_eq (hkeys e (by simp)) htarget)
      rw [Except.ok.inj heq] at hc ⊢
      exact (threeWay_mem _ _).resolve_left hc
    refine ⟨it', _, hseek, .entry a e b rfl hon hskip ?_ ?_⟩
    · -- the entries behind the first one are larger still
      intro y hy
      rcases List.mem_cons.1 hy with rfl | hy
      · rcases hrange with rfl | rfl
        · exact .inl hstop
        · exact .inr hstop
      · have hlt' := (List.pairwise_cons.1 (List.pairwise_append.1 hpair).2.1).1 y hy
        exact .inr (compare_ge_of_lt (hkeys e (by simp)) (hkeys y (by simp [hy])) htarget hlt' hstop
          hc)
    · rw [beq_iff_eq, hstop, Except.ok.injEq]

/-- The block of the keys `a` and `c`, sought for the key `b` by an iterator that was at its end. -/
theorem seek_lower_bound_between :
    ∃ it' found, BlockIterator.seek internalKeyCompare
        ⟨blockImage [(createInternalKey [97] 1 .kTypeValue, []),
          (createInternalKey [99] 2 .kTypeValue, [])], 22, [], 22, 0⟩
        (createInternalKey [98] 3 .kTypeValue) = .ok (it', found) ∧
      AtLowerBound internalKeyCompare [(createInternalKey [97] 1 .kTypeValue, []),
        (createInternalKey [99] 2 .kTypeValue, [])] (createInternalKey [98] 3 .kTypeValue) it'
        found :=
  seek_lower_bound (by decide) (by simp only [List.isChain_cons_cons]; decide) (by decide) rfl
    (by decide)

/-! ### Any bytes -/

/-- The iterator has come here from `SeekToFirst` by one or more `Next` calls, all of whose own
reads stayed inside the block. -/
def Reached (data : Bytes) (it : BlockIterator) : Prop :=
  ∃ n, (make data).seekToFirst.nexts (n + 1) = .ok it

/-- A `Next` call makes the iterator invalid or its offset larger. -/
def Advances (it it' : BlockIterator) : Prop := it'.valid = false ∨ it.offset < it'.offset

/-- The loop of `Seek` for the target ends, after some number of rounds. -/
def SeekEnds (data target : Bytes) : Prop :=
  ∀ it, (make data).seekToFirst.next = .ok it →
    ∃ rounds, seekLoop internalKeyCompare target rounds it ≠ .error .diverges

/-- All `Next` calls behind the first advance, and so the loop of `Seek` ends for every target. -/
def ScanEnds (data : Bytes) : Prop :=
  (∀ it it', Reached data it → it.next = .ok it' → it.Advances it') ∧
    ∀ target, 8 ≤ target.length → SeekEnds data target

/-- The value of the entry ends so far behind the block that its end, as a number of 32 bits, is the
start of the entry or in front of it. -/
def WrapsBack (it : BlockIterator) : Prop :=
  2 ^ 32 ≤ it.vpos + it.vlen ∧ it.vpos + it.vlen ≤ 2 ^ 32 + it.offset

/-- What holds behind any number of `Next` calls: the value starts inside the block and behind the
offset, unless the iterator is at the end. -/
structure Scanned (data : Bytes) (it : BlockIterator) : Prop where
  data_eq : it.data = data
  vpos_le : it.vpos ≤ data.length
  vlen_lt : it.vlen < 2 ^ 32
  offset : it.valid = true ∧ it.offset < it.vpos ∨
    it.valid = false ∧ it.offset = u32 (it.vpos + it.vlen)

variable {data : Bytes} {it' : BlockIterator}

theorem scanned_of_next (hdata : it.data = data) (hvpos : it.vpos ≤ data.length)
    (hvlen : it.vlen < 2 ^ 32) (h : it.next = .ok it') : Scanned data it' := by
  rcases next_cases h with ⟨hv, rfl⟩ | ⟨hv, hd, ho, hlt, hle, -, hvl⟩
  · exact ⟨hdata, hvpos, hvlen, .inr ⟨hv, rfl⟩⟩
  · refine ⟨hd.trans hdata, hdata ▸ hle, hvl, .inl ⟨?_, hlt⟩⟩
    rw [valid, hd, ho]
    exact hv

theorem Reached.scanned (h : Reached data it) : Scanned data it := by
  obtain ⟨n, h⟩ := h
  induction n generalizing it with
  | zero =>
    obtain ⟨it₀, h₀, h⟩ := Exec.bind_eq_ok.1 h
    cases h₀
    exact scanned_of_next rfl (Nat.zero_le _) (show 0 < 2 ^ 32 by decide) h
  | succ n ih =>
    obtain ⟨it₁, h₁, h⟩ := Exec.bind_eq_ok.1 h
    have hs := ih h₁
    exact scanned_of_next hs.data_eq hs.vpos_le hs.vlen_lt h

theorem Reached.next (h : Reached data it) (hn : it.next = .ok it') : Reached data it' := by
  obtain ⟨n, h⟩ := h
  exact ⟨n + 1, by rw [nexts, h, Exec.ok_bind, hn]⟩

/-- **One `Next` call on any bytes** advances unless the offset wraps back. -/
theorem advances_iff (hlt : data.length < 2 ^ 32) (h : Scanned data it)
    (hn : it.next = .ok it') : it.Advances it' ↔ ¬ it.WrapsBack := by
  obtain ⟨hd, ho⟩ := next_frame hn
  have hoff : it'.offset = (it.vpos + it.vlen) % 2 ^ 32 := ho
  have hvpos := h.vpos_le
  have hvlen := h.vlen_lt
  have hvalid : it'.valid = false ↔ data.length ≤ it'.offset := by
    rw [valid, hd, h.data_eq, decide_eq_false_iff_not, not_lt]
  unfold Advances WrapsBack
  rw [hvalid]
  rcases h.offset with ⟨-, hlt'⟩ | ⟨hv, heq⟩
  · omega
  · rw [valid, h.data_eq, decide_eq_false_iff_not, not_lt] at hv
    unfold u32 at heq
    omega

/-- The loop of `Seek` needs no more rounds than there are bytes in front of it. -/
theorem seekLoop_ne_diverges {target : Bytes} {fuel : ℕ}
    (hadv : ∀ it it', Reached data it → it.next = .ok it' → it.Advances it')
    (hr : Reached data it) (hfuel : data.length - it.offset < fuel) :
    seekLoop internalKeyCompare target fuel it ≠ .error .diverges := by
  induction fuel generalizing it with
  | zero => omega
  | succ fuel ih =>
    have hdata := hr.scanned.data_eq
    cases hv : it.valid with
    | false => simp [seekLoop, hv]
    | true =>
      have hoff : it.offset < data.length := by
        rw [valid, hdata] at hv
        exact of_decide_eq_true hv
      intro h
      simp only [seekLoop, hv, Bool.not_true, Bool.false_eq_true, ↓reduceIte] at h
      rcases Exec.bind_eq_error.1 h with h | ⟨r, -, h⟩
      · cases internalKeyCompare_error h
      split at h
      · rcases Exec.bind_eq_error.1 h with h | ⟨it', hn, h⟩
        · cases next_error h
        · have hr' := hr.next hn
          refine ih hr' ?_ h
          rcases hadv it it' hr hn with hinv | hlt
          · rw [valid, hr'.scanned.data_eq, decide_eq_false_iff_not, not_lt] at hinv
            omega
          · omega
      · cases h

/-- **When scanning ends.**  For every byte string shorter than `2 ^ 32` taken as a block: every
`Next` call behind the first that stays inside the block makes the iterator invalid or its offset
larger, and the loop of `Seek` ends for every target, if and only if no value length that the calls
come across wraps the offset back. -/
theorem scanEnds_iff {data : Bytes} (hlt : data.length < 2 ^ 32) :
    ScanEnds data ↔ ∀ it it', Reached data it → it.next = .ok it' → ¬ it.WrapsBack := by
  constructor
  · intro h it it' hr hn
    exact (advances_iff hlt hr.scanned hn).1 (h.1 it it' hr hn)
  · intro h
    have hadv : ∀ it it', Reached data it → it.next = .ok it' → it.Advances it' :=
      fun it it' hr hn => (advances_iff hlt hr.scanned hn).2 (h it it' hr hn)
    refine ⟨hadv, fun target _ it hn => ⟨data.length + 1, ?_⟩⟩
    exact seekLoop_ne_diverges hadv ⟨0, hn⟩ (by omega)

/-- In a block that `BlockBuilder` has written nothing wraps. -/
theorem not_wrapsBack_of_blockImage (hlt : (blockImage l).length < 2 ^ 32)
    (hr : Reached (blockImage l) it) : ¬ it.WrapsBack := by
  obtain ⟨n, hn⟩ := hr
  have hb : (make (blockImage l)).seekToFirst.Before [] l := ⟨rfl, rfl⟩
  obtain ⟨it₁, hn₁, hb₁⟩ := hb.nexts hlt (n + 1)
  cases hn.symm.trans hn₁
  have hle := length_blockImage_le (List.take_prefix (n + 1) l)
  have hpos := hb₁.pos_eq
  unfold WrapsBack
  omega

/-- A block of one entry. -/
theorem scanEnds_one_entry : ScanEnds (blockImage [(createInternalKey [97] 1 .kTypeValue, [98])]) :=
  (scanEnds_iff (by decide)).2 fun _ _ hr _ => not_wrapsBack_of_blockImage (by decide) hr

/-- A block of fourteen bytes: a key of eight zero bytes, and a value length of `2 ^ 32 - 14`. -/
def loopingBlock : Bytes := [8, 0, 0, 0, 0, 0, 0, 0, 0, 0xf2, 0xff, 0xff, 0xff, 0x0f]

/-- On this block `Next` comes to the same entry again and again, and the loop of `Seek` never
ends. -/
theorem scanEnds_fails_looping : ¬ ∀ data : Bytes, data.length < 2 ^ 32 → ScanEnds data := by
  intro h
  have hends := (h loopingBlock (by decide)).2 [1, 0, 0, 0, 0, 0, 0, 0, 0] (by decide)
  have hfirst : (make loopingBlock).seekToFirst.next =
      .ok ⟨loopingBlock, 0, List.replicate 8 0, 14, 2 ^ 32 - 14⟩ := by decide +kernel
  have hagain : BlockIterator.next ⟨loopingBlock, 0, List.replicate 8 0, 14, 2 ^ 32 - 14⟩ =
      .ok ⟨loopingBlock, 0, List.replicate 8 0, 14, 2 ^ 32 - 14⟩ := by decide +kernel
  have hless : internalKeyCompare (List.replicate 8 (0 : UInt8))
      ([1, 0, 0, 0, 0, 0, 0, 0, 0] : Bytes) = .ok (-1) := by decide
  obtain ⟨rounds, hrounds⟩ := hends _ hfirst
  apply hrounds
  clear hrounds
  induction rounds with
  | zero => rfl
  | succ rounds ih =>
    have hv : valid ⟨loopingBlock, 0, List.replicate 8 0, 14, 2 ^ 32 - 14⟩ = true := rfl
    simp only [seekLoop, hv, Bool.not_true, Bool.false_eq_true, ↓reduceIte, hless, Exec.ok_bind,
      hagain]
    exact ih

end BlockIterator

end KoishiDB
