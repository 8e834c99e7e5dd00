import KoishiDB.Util.Bloom
import Mathlib.Data.List.Induction

/-!
# The filter block

`disk/filterblock_builder.h` and `disk/filterblock_builder.cc`: the Bloom filters of a table, one
for each `kFilterBase` bytes of the file, then their offsets, the offset of the offsets and the
logarithm of `kFilterBase`.

A table holds few keys when it is finished without a fault, so the lemmas here are about builders
whose number of keys an `int` can count the filter bits of.  They give the size of the block and
say that the block has a zero byte: the reader takes it for a zero-terminated string.
-/

namespace KoishiDB

/-- `class FilterBlockBuilder`. -/
structure FilterBlockBuilder where
  /-- The keys since the last filter, one behind the other. -/
  keys : Bytes
  /-- Where each of them starts. -/
  start : List ℕ
  /-- Where each filter starts in the result. -/
  filterOffsets : List ℕ
  /-- The filters. -/
  result : Bytes
deriving Repr, DecidableEq

namespace FilterBlockBuilder

/-- The constructor. -/
def make : FilterBlockBuilder := ⟨[], [], [], []⟩

/-- `FilterBlockBuilder::AddKey`. -/
def addKey (f : FilterBlockBuilder) (key : Bytes) : FilterBlockBuilder :=
  { f with start := f.start ++ [u32 f.keys.length], keys := f.keys ++ key }

/-- `tmp_keys_`: the keys, cut at the starts; the lengths are differences of `uint32_t`s. -/
def tmpKeys (f : FilterBlockBuilder) : List Bytes :=
  (f.start.zip (f.start.tail ++ [u32 f.keys.length])).map fun (a, b) =>
    (f.keys.drop a).take (u32 (b + 2 ^ 32 - a))

/-- `FilterBlockBuilder::GenerateFilter`. -/
def generateFilter (f : FilterBlockBuilder) : Exec FilterBlockBuilder :=
  if f.start.length = 0 then
    .ok { f with filterOffsets := f.filterOffsets ++ [u32 f.result.length] }
  else do
    let result ← createFilter f.tmpKeys f.result
    return ⟨[], [], f.filterOffsets ++ [u32 f.result.length], result⟩

/-- The loop of `StartBlock`: `n` more filters. -/
def generateFilters : ℕ → FilterBlockBuilder → Exec FilterBlockBuilder
  | 0, f => .ok f
  | n + 1, f => do
    let f ← f.generateFilter
    generateFilters n f

/-- `FilterBlockBuilder::StartBlock`. -/
def startBlock (f : FilterBlockBuilder) (blockOffset : ℕ) : Exec FilterBlockBuilder := do
  let filterIndex := blockOffset / kFilterBase
  Exec.require (filterIndex ≥ f.filterOffsets.length) "filter_index >= filter_offsets_.size()"
  generateFilters (filterIndex - f.filterOffsets.length) f

/-- The filter for the keys that are still waiting, if there are any. -/
def generateLast (f : FilterBlockBuilder) : Exec FilterBlockBuilder :=
  if f.start.isEmpty then .ok f else f.generateFilter

/-- The filters, their offsets, the offset of the offsets and the logarithm of `kFilterBase`. -/
def contents (f : FilterBlockBuilder) : Bytes :=
  f.result ++ f.filterOffsets.flatMap encodeFixed32 ++ encodeFixed32 (u32 f.result.length) ++
    [UInt8.ofNat kFilterBaseLg]

/-- `FilterBlockBuilder::Finish`: the block, and the builder. -/
def finish (f : FilterBlockBuilder) : Exec (Bytes × FilterBlockBuilder) := do
  let f ← f.generateLast
  return (f.contents, { f with result := f.contents })

/-- The builder after the keys of a table. -/
def ofKeys (keys : List Bytes) : FilterBlockBuilder := keys.foldl addKey make

theorem ofKeys_append (keys : List Bytes) (key : Bytes) :
    ofKeys (keys ++ [key]) = (ofKeys keys).addKey key := by
  simp [ofKeys, List.foldl_append]

/-- The keys in any number: how many start, and that no filter is there yet. -/
theorem ofKeys_frame (keys : List Bytes) :
    (ofKeys keys).start.length = keys.length ∧ (ofKeys keys).filterOffsets = [] ∧
      (ofKeys keys).result = [] := by
  induction keys using List.reverseRecOn with
  | nil => exact ⟨rfl, rfl, rfl⟩
  | append_singleton keys key ih =>
    rw [ofKeys_append]
    exact ⟨by simpa [addKey] using ih.1, ih.2.1, ih.2.2⟩

/-! ### Builders of few keys -/

/-- Few keys are waiting, and the first filter starts at the start of the block. -/
structure Small (f : FilterBlockBuilder) : Prop where
  few : f.start.length * 10 < 2 ^ 31
  first : f.filterOffsets = [] ∧ f.result = [] ∨ ∃ offsets, f.filterOffsets = 0 :: offsets

/-- The builder has seen a key. -/
def Keyed (f : FilterBlockBuilder) : Prop := f.start ≠ [] ∨ f.filterOffsets ≠ []

/-- A bound for the bytes of the filters, those of the keys that are waiting included. -/
def weight (f : FilterBlockBuilder) : ℕ := f.result.length + 19 * f.start.length

theorem length_tmpKeys (f : FilterBlockBuilder) :
    f.tmpKeys.length = f.start.length := by
  have : f.start.length ≤ f.start.length - 1 + 1 := by omega
  simp only [tmpKeys, List.length_map, List.length_zip, List.length_append, List.length_tail,
    List.length_singleton, Nat.min_eq_left this]

theorem first_append {offsets : List ℕ} {result : Bytes}
    (h : offsets = [] ∧ result = [] ∨ ∃ l, offsets = 0 :: l) :
    ∃ l, offsets ++ [u32 result.length] = 0 :: l := by
  rcases h with ⟨rfl, rfl⟩ | ⟨l, rfl⟩
  · exact ⟨[], rfl⟩
  · exact ⟨l ++ [u32 result.length], rfl⟩

theorem generateFilter_spec {f : FilterBlockBuilder} (h : f.Small) :
    ∃ f', f.generateFilter = .ok f' ∧ f'.Small ∧ f'.start = [] ∧
      f'.filterOffsets.length = f.filterOffsets.length + 1 ∧ f'.weight ≤ f.weight := by
  unfold generateFilter
  split
  · rename_i h0
    refine ⟨_, rfl, ⟨h.few, .inr (first_append h.first)⟩, List.length_eq_zero_iff.1 h0, ?_, le_rfl⟩
    simp
  · rename_i h0
    have hlen := length_tmpKeys f
    obtain ⟨filter, hfilter, hsize, -⟩ := createFilter_eq (hlen ▸ h.few) f.result
    refine ⟨⟨[], [], f.filterOffsets ++ [u32 f.result.length], f.result ++ filter⟩, ?_,
      ⟨by simp, .inr (first_append h.first)⟩, rfl, by simp, ?_⟩
    · simp only [hfilter, Exec.ok_bind, Exec.pure_eq]
    · have := filterBytes_le (f.start.length * 10)
      simp only [weight, List.length_append, List.length_nil, hsize, hlen]
      omega

theorem generateFilters_spec {f : FilterBlockBuilder} (h : f.Small) (n : ℕ) :
    ∃ f', generateFilters n f = .ok f' ∧ f'.Small ∧
      f'.filterOffsets.length = f.filterOffsets.length + n ∧ f'.weight ≤ f.weight ∧
      f'.start.length ≤ f.start.length ∧ (f.Keyed → f'.Keyed) := by
  induction n generalizing f with
  | zero => exact ⟨f, rfl, h, rfl, le_rfl, le_rfl, id⟩
  | succ n ih =>
    obtain ⟨f₁, hf₁, hs₁, hst₁, hl₁, hw₁⟩ := generateFilter_spec h
    obtain ⟨f₂, hf₂, hs₂, hl₂, hw₂, hst₂, -⟩ := ih hs₁
    refine ⟨f₂, ?_, hs₂, by omega, by omega, ?_, fun _ => .inr ?_⟩
    · simp only [generateFilters, hf₁, Exec.ok_bind, hf₂]
    · rw [hst₁] at hst₂
      exact hst₂.trans (Nat.zero_le _)
    · intro h0
      rw [h0, List.length_nil] at hl₂
      omega

/-- `StartBlock` behind all blocks seen so far. -/
theorem startBlock_spec {f : FilterBlockBuilder} (h : f.Small) {blockOffset : ℕ}
    (hle : f.filterOffsets.length ≤ blockOffset / kFilterBase) :
    ∃ f', f.startBlock blockOffset = .ok f' ∧ f'.Small ∧
      f'.filterOffsets.length = blockOffset / kFilterBase ∧ f'.weight ≤ f.weight ∧
      f'.start.length ≤ f.start.length ∧ (f.Keyed → f'.Keyed) := by
  obtain ⟨f', hf', hs, hl, hw, hst⟩ :=
    generateFilters_spec h (blockOffset / kFilterBase - f.filterOffsets.length)
  refine ⟨f', ?_, hs, by omega, hw, hst⟩
  simp only [startBlock, Exec.require_of hle, Exec.ok_bind, hf']

theorem generateFilters_add (n m : ℕ) (f : FilterBlockBuilder) :
    generateFilters (n + m) f = (generateFilters n f >>= generateFilters m) := by
  induction n generalizing f with
  | zero => rw [Nat.zero_add]; rfl
  | succ n ih =>
    rw [Nat.succ_add, generateFilters, generateFilters]
    cases f.generateFilter with
    | error e => rfl
    | ok f' => exact ih f'

/-- Starting a block at one offset and then another at a later one. -/
theorem startBlock_startBlock {f f' f'' : FilterBlockBuilder} {a b : ℕ}
    (hlen : f'.filterOffsets.length = a / kFilterBase) (h : f.startBlock a = .ok f')
    (h' : f'.startBlock b = .ok f'') : f.startBlock b = .ok f'' := by
  obtain ⟨_, hle, h⟩ := Exec.bind_eq_ok.1 h
  obtain ⟨_, hle', h'⟩ := Exec.bind_eq_ok.1 h'
  have hle := Exec.require_eq_ok.1 hle
  have hle' := Exec.require_eq_ok.1 hle'
  rw [hlen] at hle' h'
  have hsplit : b / kFilterBase - f.filterOffsets.length =
      (a / kFilterBase - f.filterOffsets.length) + (b / kFilterBase - a / kFilterBase) := by
    omega
  rw [startBlock, Exec.require_of (hle.trans hle'), Exec.ok_bind, hsplit, generateFilters_add, h]
  exact h'

theorem length_flatMap_encodeFixed32 (l : List ℕ) :
    (l.flatMap encodeFixed32).length = 4 * l.length := by
  induction l with
  | nil => rfl
  | cons x xs ih =>
    rw [List.flatMap_cons, List.length_append, ih, length_encodeFixed32, List.length_cons]
    omega

/-- The finished block of a builder that has seen a key: its size, and that it has a zero byte. -/
theorem finish_spec {f : FilterBlockBuilder} (h : f.Small)
    (hkey : f.Keyed) :
    ∃ block f', f.finish = .ok (block, f') ∧ 0 ∈ block ∧ 0 < block.length ∧
      block.length ≤ f.weight + 4 * f.filterOffsets.length + 9 := by
  -- Either keys are left and a last filter is generated, or there is a filter already: in both
  -- cases the array of offsets starts with zero.
  have hmid : ∃ f₁ offsets, f.generateLast = .ok f₁ ∧
      f₁.filterOffsets = 0 :: offsets ∧ f₁.weight ≤ f.weight ∧
      f₁.filterOffsets.length ≤ f.filterOffsets.length + 1 := by
    by_cases he : f.start = []
    · rcases h.first with ⟨h0, -⟩ | ⟨offsets, hof⟩
      · exact absurd h0 (hkey.resolve_left (not_not.2 he))
      · exact ⟨f, offsets, by simp [generateLast, he], hof, le_rfl, Nat.le_succ _⟩
    · obtain ⟨f₁, hf₁, hs₁, -, hl₁, hw₁⟩ := generateFilter_spec h
      rcases hs₁.first with ⟨h0, -⟩ | ⟨offsets, hof⟩
      · rw [h0] at hl₁
        exact absurd hl₁ (by simp)
      · exact ⟨f₁, offsets, by simp [generateLast, he, hf₁], hof, hw₁, hl₁.le⟩
  obtain ⟨f₁, offsets, hf₁, hof, hw, hl⟩ := hmid
  refine ⟨f₁.contents, { f₁ with result := f₁.contents },
    by simp only [finish, hf₁, Exec.ok_bind, Exec.pure_eq], ?_, by simp [contents], ?_⟩
  · have : (0 : UInt8) ∈ encodeFixed32 0 := by decide
    simp [contents, hof, this]
  · have hlen := length_flatMap_encodeFixed32 f₁.filterOffsets
    simp only [contents, List.length_append, hlen, length_encodeFixed32, List.length_singleton]
    unfold weight at hw ⊢
    omega

/-! ### The size of a block, however many keys there are -/

theorem generateFilter_size {f f' : FilterBlockBuilder} (h : f.generateFilter = .ok f') :
    f'.start = [] ∧ f'.filterOffsets.length = f.filterOffsets.length + 1 ∧
      f'.result.length ≤ f.result.length + 2 ^ 29 ∧ (f.start = [] → f'.result = f.result) := by
  unfold generateFilter at h
  split at h
  · rename_i h0
    cases h
    exact ⟨List.length_eq_zero_iff.1 h0, by simp, Nat.le_add_right _ _, fun _ => rfl⟩
  · rename_i h0
    obtain ⟨result, hr, h⟩ := Exec.bind_eq_ok.1 h
    cases h
    exact ⟨rfl, by simp, length_createFilter_le hr, fun hs => absurd (by simp [hs]) h0⟩

/-- Only the first of several filters has keys. -/
theorem generateFilters_size {n : ℕ} {f f' : FilterBlockBuilder}
    (h : generateFilters n f = .ok f') :
    f'.filterOffsets.length = f.filterOffsets.length + n ∧
      f'.result.length ≤ f.result.length + 2 ^ 29 ∧ (f.start = [] → f'.result = f.result) := by
  induction n generalizing f with
  | zero => cases h; exact ⟨rfl, Nat.le_add_right _ _, fun _ => rfl⟩
  | succ n ih =>
    obtain ⟨f₁, hf₁, h⟩ := Exec.bind_eq_ok.1 h
    obtain ⟨hst, hlen, hsize, hsame⟩ := generateFilter_size hf₁
    obtain ⟨hlen', -, hsame'⟩ := ih h
    rw [hsame' hst]
    exact ⟨by omega, hsize, hsame⟩

theorem startBlock_size {f f' : FilterBlockBuilder} {blockOffset : ℕ}
    (h : f.startBlock blockOffset = .ok f') :
    f'.filterOffsets.length = blockOffset / kFilterBase ∧
      f'.result.length ≤ f.result.length + 2 ^ 29 := by
  obtain ⟨_, hle, h⟩ := Exec.bind_eq_ok.1 h
  have hle := Exec.require_eq_ok.1 hle
  obtain ⟨hlen, hsize, -⟩ := generateFilters_size h
  exact ⟨by omega, hsize⟩

theorem finish_size {f f' : FilterBlockBuilder} {block : Bytes}
    (h : f.finish = .ok (block, f')) :
    block.length ≤ f.result.length + 2 ^ 29 + 4 * (f.filterOffsets.length + 1) + 5 := by
  obtain ⟨f₁, hf₁, h⟩ := Exec.bind_eq_ok.1 h
  cases h
  have hlen := length_flatMap_encodeFixed32 f₁.filterOffsets
  have hmid : f₁.result.length ≤ f.result.length + 2 ^ 29 ∧
      f₁.filterOffsets.length ≤ f.filterOffsets.length + 1 := by
    unfold generateLast at hf₁
    split at hf₁
    · cases hf₁
      exact ⟨Nat.le_add_right _ _, Nat.le_succ _⟩
    · obtain ⟨-, hoffsets, hsize, -⟩ := generateFilter_size hf₁
      exact ⟨hsize, hoffsets.le⟩
  simp only [contents, List.length_append, hlen, length_encodeFixed32, List.length_singleton]
  omega

end FilterBlockBuilder

end KoishiDB
