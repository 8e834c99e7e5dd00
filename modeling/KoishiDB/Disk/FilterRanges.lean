import KoishiDB.Base.Machine
import KoishiDB.Disk.FilterReader

/-!
# Filter blocks of any calls

`FilterBlockBuilder` after any `StartBlock` and `AddKey` calls, the offsets of the blocks in
non-decreasing order.  A key belongs to the range of `kFilterBase` bytes with the offset of the
latest `StartBlock`, and there is one filter for each range.

`Filters added n f Fs` says where a builder stands: the filters `Fs` of the ranges below `n` are
there, and the keys of the range `n` are waiting.  `GenerateFilter` goes from `n` to `n + 1`; it
fails if the bits for the waiting keys are more than an `int` can count.

* `filterBlock_right_iff` : when the filter block answers as it should.
-/

namespace KoishiDB

namespace FilterBlockBuilder

/-- A call of a builder. -/
inductive Call where
  | startBlock (blockOffset : ℕ)
  | addKey (key : Bytes)

/-- The builder behind a call. -/
def call (f : FilterBlockBuilder) : Call → Exec FilterBlockBuilder
  | .startBlock blockOffset => f.startBlock blockOffset
  | .addKey key => .ok (f.addKey key)

/-- The keys that are added, with the offset of the latest `StartBlock`; it is `off` at first. -/
def addedFrom (off : ℕ) : List Call → List (ℕ × Bytes)
  | [] => []
  | .startBlock blockOffset :: calls => addedFrom blockOffset calls
  | .addKey key :: calls => (off, key) :: addedFrom off calls

/-- The offset of the latest `StartBlock`. -/
def lastOffset (off : ℕ) : List Call → ℕ
  | [] => off
  | .startBlock blockOffset :: calls => lastOffset blockOffset calls
  | .addKey _ :: calls => lastOffset off calls

/-- The offsets do not decrease. -/
def Ascending (off : ℕ) : List Call → Prop
  | [] => True
  | .startBlock blockOffset :: calls => off ≤ blockOffset ∧ Ascending blockOffset calls
  | .addKey _ :: calls => Ascending off calls

/-- The keys of the range `i`. -/
def rangeKeys (added : List (ℕ × Bytes)) (i : ℕ) : List Bytes :=
  (added.filter fun p => p.1 / kFilterBase = i).map Prod.snd

/-- The filters are made for a number of keys whose bits an `int` can count. -/
def Few (added : List (ℕ × Bytes)) : Prop := ∀ i, (rangeKeys added i).length * 10 < 2 ^ 31

/-- The keys of every range have positions of 32 bits, and so has the finished block. -/
structure Sized (calls : List Call) : Prop where
  bytes : ∀ i, (rangeKeys (addedFrom 0 calls) i).flatten.length < 2 ^ 32
  keys : ∀ i, (rangeKeys (addedFrom 0 calls) i).length < 2 ^ 32
  block : ∀ f block f', Machine.run call make calls = .ok f → f.finish = .ok (block, f') →
    block.length < 2 ^ 32

/-- What a filter block should do: all calls return, the block accepts every key under the offset
under which it was added, and under the offset of a range with a filter and without keys it accepts
nothing. -/
def Right (calls : List Call) : Prop :=
  ∃ f block f', Machine.run call make calls = .ok f ∧ f.finish = .ok (block, f') ∧
    (∀ off key, (off, key) ∈ addedFrom 0 calls →
      (FilterBlockReader.make block).keyMayMatch off key = .ok true) ∧
    ∀ off, off / kFilterBase < f'.filterOffsets.length →
      rangeKeys (addedFrom 0 calls) (off / kFilterBase) = [] →
        ∀ key, (FilterBlockReader.make block).keyMayMatch off key = .ok false

/-! ### The keys of a range -/

theorem rangeKeys_append (added added' : List (ℕ × Bytes)) (i : ℕ) :
    rangeKeys (added ++ added') i = rangeKeys added i ++ rangeKeys added' i := by
  simp only [rangeKeys, List.filter_append, List.map_append]

theorem mem_rangeKeys {added : List (ℕ × Bytes)} {off : ℕ} {key : Bytes} (h : (off, key) ∈ added) :
    key ∈ rangeKeys added (off / kFilterBase) :=
  List.mem_map.2 ⟨(off, key), List.mem_filter.2 ⟨h, by simp⟩, rfl⟩

theorem rangeKeys_eq_nil {added : List (ℕ × Bytes)} {n i : ℕ}
    (h : ∀ p ∈ added, p.1 / kFilterBase ≤ n) (hi : n < i) : rangeKeys added i = [] := by
  rw [rangeKeys, List.map_eq_nil_iff, List.filter_eq_nil_iff]
  intro p hp heq
  have := h p hp
  rw [of_decide_eq_true heq] at this
  omega

theorem length_rangeKeys_le (added : List (ℕ × Bytes)) (i : ℕ) :
    (rangeKeys added i).length ≤ added.length := by
  rw [rangeKeys, List.length_map]
  exact List.length_filter_le _ _

theorem length_flatten_rangeKeys_le (added : List (ℕ × Bytes)) (i : ℕ) :
    (rangeKeys added i).flatten.length ≤ (added.map Prod.snd).flatten.length := by
  induction added with
  | nil => simp [rangeKeys]
  | cons p added ih =>
    have hcons := rangeKeys_append [p] added i
    rw [List.singleton_append] at hcons
    rw [hcons, List.flatten_append, List.length_append, List.map_cons, List.flatten_cons,
      List.length_append]
    have hp : (rangeKeys [p] i).flatten.length ≤ p.2.length := by
      by_cases hi : p.1 / kFilterBase = i <;> simp [rangeKeys, hi]
    omega

/-! ### Filters one by one -/

/-- The filter of some keys accepts them, and is empty if there are none. -/
structure Accepts (F : Bytes) (keys : List Bytes) : Prop where
  accepts : ∀ key ∈ keys, KoishiDB.keyMayMatch key F = true
  empty : keys = [] → F = []

/-- The builder has the filters `Fs` of the ranges below `n`, and the keys of the range `n` are
waiting. -/
structure Filters (added : List (ℕ × Bytes)) (n : ℕ) (f : FilterBlockBuilder) (Fs : List Bytes) :
    Prop where
  length_eq : Fs.length = n
  result_eq : f.result = Fs.flatten
  offsets_eq : f.filterOffsets = (List.range n).map fun i => u32 (Fs.take i).flatten.length
  waiting : Waiting f (rangeKeys added n)
  accepts : ∀ i F, Fs[i]? = some F → Accepts F (rangeKeys added i)
  few : ∀ i, i < n → (rangeKeys added i).length * 10 < 2 ^ 31
  le : ∀ p ∈ added, p.1 / kFilterBase ≤ n

variable {added : List (ℕ × Bytes)} {n : ℕ} {f f' : FilterBlockBuilder} {Fs : List Bytes}

theorem filters_make : Filters [] (0 / kFilterBase) make [] :=
  ⟨rfl, rfl, rfl, waiting_nil [] [], by simp, by simp, by simp⟩

theorem Filters.length_offsets (h : Filters added n f Fs) : f.filterOffsets.length = n := by
  rw [h.offsets_eq, List.length_map, List.length_range]

theorem Filters.length_start (h : Filters added n f Fs) :
    f.start.length = (rangeKeys added n).length := by
  rw [← length_tmpKeys, h.waiting.tmpKeys]

/-- One more filter. -/
theorem Filters.push (h : Filters added n f Fs) {F : Bytes} (hF : Accepts F (rangeKeys added n))
    (hfew : (rangeKeys added n).length * 10 < 2 ^ 31) :
    Filters added (n + 1) ⟨[], [], f.filterOffsets ++ [u32 f.result.length], f.result ++ F⟩
      (Fs ++ [F]) := by
  refine ⟨by simp [h.length_eq], by simp [h.result_eq], ?_, ?_, ?_, ?_, ?_⟩
  · have hsame : ∀ i ∈ List.range n, u32 ((Fs ++ [F]).take i).flatten.length =
        u32 (Fs.take i).flatten.length := by
      intro i hi
      rw [List.take_append_of_le_length (by rw [h.length_eq]; exact (List.mem_range.1 hi).le)]
    rw [List.range_succ, List.map_append, List.map_congr_left hsame, ← h.offsets_eq,
      List.map_singleton, List.take_left' h.length_eq, h.result_eq]
  · rw [rangeKeys_eq_nil h.le (Nat.lt_succ_self n)]
    exact waiting_nil _ _
  · intro i F' hi
    rcases Nat.lt_or_ge i n with hlt | hge
    · rw [List.getElem?_append_left (by rwa [h.length_eq])] at hi
      exact h.accepts i F' hi
    · rw [List.getElem?_append_right (by rwa [h.length_eq])] at hi
      obtain ⟨hi0, hF'⟩ := List.getElem?_eq_some_iff.1 hi
      rw [List.length_singleton, h.length_eq] at hi0
      obtain rfl : i = n := by omega
      obtain rfl : F = F' := by simpa [h.length_eq] using hF'
      exact hF
  · intro i hi
    rcases Nat.lt_or_ge i n with hlt | hge
    · exact h.few i hlt
    · obtain rfl : i = n := by omega
      exact hfew
  · intro p hp
    exact (h.le p hp).trans (Nat.le_succ n)

/-- **`GenerateFilter`**, if it returns, makes the filter of the waiting keys. -/
theorem Filters.generateFilter (h : Filters added n f Fs)
    (hlt : (rangeKeys added n).length < 2 ^ 32) (hgen : f.generateFilter = .ok f') :
    ∃ Fs', Filters added (n + 1) f' Fs' := by
  have hstart := h.length_start
  unfold FilterBlockBuilder.generateFilter at hgen
  split at hgen
  · rename_i h0
    have hnil : rangeKeys added n = [] := List.length_eq_zero_iff.1 (hstart ▸ h0)
    have hkeys : f.keys = [] := by rw [h.waiting.keys_eq, hnil, List.flatten_nil]
    cases hgen
    refine ⟨Fs ++ [[]], ?_⟩
    have hpush := h.push (F := []) ⟨by simp [hnil], fun _ => rfl⟩ (by simp [hnil])
    rw [List.append_nil] at hpush
    rw [hkeys, List.length_eq_zero_iff.1 h0]
    exact hpush
  · rename_i h0
    obtain ⟨result, hcreate, hgen⟩ := Exec.bind_eq_ok.1 hgen
    cases hgen
    rw [h.waiting.tmpKeys] at hcreate
    have hfew := few_of_createFilter hlt hcreate
    obtain ⟨F, hF, -, hmatch⟩ := createFilter_eq hfew f.result
    obtain rfl := Except.ok.inj (hcreate.symm.trans hF)
    refine ⟨Fs ++ [F], h.push ⟨hmatch, ?_⟩ hfew⟩
    intro hnil
    rw [hnil] at hstart
    exact absurd hstart h0

/-- It returns for a number of keys whose bits an `int` can count. -/
theorem Filters.exists_generateFilter (h : Filters added n f Fs)
    (hfew : (rangeKeys added n).length * 10 < 2 ^ 31) : ∃ f', f.generateFilter = .ok f' := by
  unfold FilterBlockBuilder.generateFilter
  split
  · exact ⟨_, rfl⟩
  · obtain ⟨F, hF, -⟩ := createFilter_eq hfew f.result
    rw [h.waiting.tmpKeys, hF]
    exact ⟨_, rfl⟩

theorem Filters.generateFilters (h : Filters added n f Fs) {m : ℕ}
    (hlt : ∀ i, (rangeKeys added i).length < 2 ^ 32) (hgen : generateFilters m f = .ok f') :
    ∃ Fs', Filters added (n + m) f' Fs' := by
  induction m generalizing n f Fs with
  | zero =>
    cases hgen
    exact ⟨Fs, h⟩
  | succ m ih =>
    obtain ⟨f₁, hf₁, hgen⟩ := Exec.bind_eq_ok.1 hgen
    obtain ⟨Fs₁, h₁⟩ := h.generateFilter (hlt n) hf₁
    obtain ⟨Fs', h'⟩ := ih h₁ hgen
    exact ⟨Fs', by rwa [Nat.add_right_comm] at h'⟩

theorem Filters.exists_generateFilters (h : Filters added n f Fs) (hfew : Few added) (m : ℕ) :
    ∃ f', FilterBlockBuilder.generateFilters m f = .ok f' := by
  induction m generalizing n f Fs with
  | zero => exact ⟨f, rfl⟩
  | succ m ih =>
    obtain ⟨f₁, hf₁⟩ := h.exists_generateFilter (hfew n)
    have hlt : (rangeKeys added n).length < 2 ^ 32 := by
      have := hfew n
      omega
    obtain ⟨Fs₁, h₁⟩ := h.generateFilter hlt hf₁
    obtain ⟨f', hf'⟩ := ih h₁
    exact ⟨f', by rw [FilterBlockBuilder.generateFilters, hf₁, Exec.ok_bind, hf']⟩

/-! ### Calls -/

theorem Filters.addKey (h : Filters added n f Fs) {off : ℕ} (hoff : off / kFilterBase = n)
    {key : Bytes} (hlt : (rangeKeys (added ++ [(off, key)]) n).flatten.length < 2 ^ 32) :
    Filters (added ++ [(off, key)]) n (f.addKey key) Fs := by
  have hnew : rangeKeys (added ++ [(off, key)]) n = rangeKeys added n ++ [key] := by
    rw [rangeKeys_append]
    simp [rangeKeys, hoff]
  have hold : ∀ i, i ≠ n → rangeKeys (added ++ [(off, key)]) i = rangeKeys added i := by
    intro i hi
    rw [rangeKeys_append]
    simp [rangeKeys, hoff, hi.symm]
  refine ⟨h.length_eq, h.result_eq, h.offsets_eq, ?_, ?_, ?_, ?_⟩
  · rw [hnew] at hlt ⊢
    exact h.waiting.addKey hlt
  · intro i F hi
    have hin : i < n := h.length_eq ▸ (List.getElem?_eq_some_iff.1 hi).1
    rw [hold i hin.ne]
    exact h.accepts i F hi
  · intro i hi
    rw [hold i hi.ne]
    exact h.few i hi
  · intro p hp
    rcases List.mem_append.1 hp with hp | hp
    · exact h.le p hp
    · rw [List.mem_singleton.1 hp]
      exact hoff.le

theorem Filters.startBlock (h : Filters added n f Fs) {blockOffset : ℕ}
    (hlt : ∀ i, (rangeKeys added i).length < 2 ^ 32) (hstart : f.startBlock blockOffset = .ok f') :
    ∃ Fs', Filters added (blockOffset / kFilterBase) f' Fs' := by
  obtain ⟨_, hle, hgen⟩ := Exec.bind_eq_ok.1 hstart
  have hle := Exec.require_eq_ok.1 hle
  rw [h.length_offsets] at hle hgen
  obtain ⟨Fs', h'⟩ := h.generateFilters hlt hgen
  exact ⟨Fs', by rwa [Nat.add_sub_cancel' hle] at h'⟩

theorem Filters.exists_startBlock (h : Filters added n f Fs) (hfew : Few added) {blockOffset : ℕ}
    (hle : n ≤ blockOffset / kFilterBase) : ∃ f', f.startBlock blockOffset = .ok f' := by
  obtain ⟨f', hf'⟩ := h.exists_generateFilters hfew
    (blockOffset / kFilterBase - f.filterOffsets.length)
  refine ⟨f', ?_⟩
  rw [FilterBlockBuilder.startBlock, Exec.require_of (by rwa [h.length_offsets]), Exec.ok_bind, hf']

theorem length_rangeKeys_append_le (added added' : List (ℕ × Bytes)) (i : ℕ) :
    (rangeKeys added i).length ≤ (rangeKeys (added ++ added') i).length ∧
      (rangeKeys added i).flatten.length ≤ (rangeKeys (added ++ added') i).flatten.length := by
  rw [rangeKeys_append, List.flatten_append, List.length_append, List.length_append]
  exact ⟨Nat.le_add_right _ _, Nat.le_add_right _ _⟩

theorem Few.of_append {added' : List (ℕ × Bytes)} (h : Few (added ++ added')) : Few added := by
  intro i
  have := (length_rangeKeys_append_le added added' i).1
  have := h i
  omega

/-- **Calls that return** leave the filters of the ranges below that of the latest offset. -/
theorem Filters.run {off : ℕ} (h : Filters added (off / kFilterBase) f Fs) {calls : List Call}
    (hbytes : ∀ i, (rangeKeys (added ++ addedFrom off calls) i).flatten.length < 2 ^ 32)
    (hkeys : ∀ i, (rangeKeys (added ++ addedFrom off calls) i).length < 2 ^ 32)
    (hrun : Machine.run call f calls = .ok f') :
    ∃ Fs', Filters (added ++ addedFrom off calls) (lastOffset off calls / kFilterBase) f' Fs' := by
  induction calls generalizing added off f Fs with
  | nil =>
    cases hrun
    exact ⟨Fs, by rwa [addedFrom, List.append_nil]⟩
  | cons c calls ih =>
    obtain ⟨f₁, hstep, hrest⟩ := Machine.run_cons_ok.1 hrun
    cases c with
    | startBlock blockOffset =>
      obtain ⟨Fs₁, h₁⟩ := h.startBlock
        (fun i => (length_rangeKeys_append_le added _ i).1.trans_lt (hkeys i)) hstep
      exact ih h₁ hbytes hkeys hrest
    | addKey key =>
      cases hstep
      rw [addedFrom, List.append_cons] at hbytes hkeys ⊢
      exact ih (h.addKey rfl ((length_rangeKeys_append_le _ _ _).2.trans_lt (hbytes _))) hbytes
        hkeys hrest

/-- Calls with offsets in non-decreasing order return if no range has too many keys. -/
theorem Filters.exists_run {off : ℕ} (h : Filters added (off / kFilterBase) f Fs)
    {calls : List Call} (hasc : Ascending off calls)
    (hbytes : ∀ i, (rangeKeys (added ++ addedFrom off calls) i).flatten.length < 2 ^ 32)
    (hfew : Few (added ++ addedFrom off calls)) : ∃ f', Machine.run call f calls = .ok f' := by
  induction calls generalizing added off f Fs with
  | nil => exact ⟨f, rfl⟩
  | cons c calls ih =>
    cases c with
    | startBlock blockOffset =>
      obtain ⟨f₁, hf₁⟩ := h.exists_startBlock hfew.of_append
        (Nat.div_le_div_right (c := kFilterBase) hasc.1)
      obtain ⟨Fs₁, h₁⟩ := h.startBlock
        (fun i => by have := hfew.of_append i; omega) hf₁
      obtain ⟨f', hf'⟩ := ih h₁ hasc.2 hbytes hfew
      exact ⟨f', Machine.run_cons_ok.2 ⟨f₁, hf₁, hf'⟩⟩
    | addKey key =>
      rw [addedFrom, List.append_cons] at hbytes hfew
      have h₁ := h.addKey rfl ((length_rangeKeys_append_le _ _ _).2.trans_lt (hbytes _))
      obtain ⟨f', hf'⟩ := ih h₁ hasc hbytes hfew
      exact ⟨f', Machine.run_cons_ok.2 ⟨_, rfl, hf'⟩⟩

/-! ### The finished block -/

/-- The waiting keys get a filter of their own before the block is put together. -/
theorem Filters.generateLast (h : Filters added n f Fs)
    (hlt : (rangeKeys added n).length < 2 ^ 32) (hlast : f.generateLast = .ok f') :
    ∃ k Fs', Filters added k f' Fs' ∧ rangeKeys added k = [] := by
  unfold FilterBlockBuilder.generateLast at hlast
  split at hlast
  · rename_i h0
    cases hlast
    have hstart := h.length_start
    rw [List.isEmpty_iff.1 h0] at hstart
    exact ⟨n, Fs, h, List.length_eq_zero_iff.1 hstart.symm⟩
  · obtain ⟨Fs', h'⟩ := h.generateFilter hlt hlast
    exact ⟨n + 1, Fs', h', rangeKeys_eq_nil h.le (Nat.lt_succ_self n)⟩

theorem Filters.contents (h : Filters added n f Fs) (hlt : f.contents.length < 2 ^ 32) :
    f.contents = FilterBlockReader.filterBlock Fs ∧ Fs.flatten.length < 2 ^ 32 := by
  have hflat : Fs.flatten.length < 2 ^ 32 := by
    simp only [FilterBlockBuilder.contents, List.length_append, h.result_eq] at hlt
    omega
  have hstarts : FilterBlockReader.starts Fs = f.filterOffsets ++ [u32 f.result.length] := by
    rw [FilterBlockReader.starts, h.length_eq, List.range_succ, List.map_append,
      List.map_singleton, ← h.length_eq, List.take_length, h.result_eq, u32_of_lt hflat,
      h.offsets_eq, ← h.length_eq]
    refine congrArg (· ++ [Fs.flatten.length]) (List.map_congr_left ?_)
    intro i _
    rw [u32_of_lt ((FilterBlockReader.length_flatten_take_le Fs i).trans_lt hflat)]
  refine ⟨?_, hflat⟩
  rw [FilterBlockBuilder.contents, FilterBlockReader.filterBlock, hstarts, h.result_eq]
  simp

/-- A builder with filters for all its keys. -/
theorem Filters.all (h : Filters added n f Fs) (hnil : rangeKeys added n = []) :
    Few added ∧ ∀ p ∈ added, p.1 / kFilterBase < n := by
  refine ⟨?_, ?_⟩
  · intro i
    rcases Nat.lt_trichotomy i n with hlt | rfl | hgt
    · exact h.few i hlt
    · simp [hnil]
    · simp [rangeKeys_eq_nil h.le hgt]
  · rintro ⟨off, key⟩ hp
    refine lt_of_le_of_ne (h.le _ hp) ?_
    rintro rfl
    have := mem_rangeKeys hp
    rw [hnil] at this
    cases this

section Right

variable {calls : List Call}

/-- A block that was finished has filters for all keys. -/
theorem Sized.finish (h : Sized calls) {block : Bytes} {f f' : FilterBlockBuilder}
    (hrun : Machine.run call make calls = .ok f) (hfin : f.finish = .ok (block, f')) :
    ∃ n f₁ Fs, Filters (addedFrom 0 calls) n f₁ Fs ∧ rangeKeys (addedFrom 0 calls) n = [] ∧
      block = FilterBlockReader.filterBlock Fs ∧ Fs.flatten.length < 2 ^ 32 ∧
      f'.filterOffsets.length = n := by
  obtain ⟨Fs, hF⟩ := filters_make.run h.bytes h.keys hrun
  have hlt := h.block f block f' hrun hfin
  obtain ⟨f₁, hlast, hfin⟩ := Exec.bind_eq_ok.1 hfin
  cases hfin
  obtain ⟨n, Fs₁, hF₁, hnil⟩ := hF.generateLast (h.keys _) hlast
  obtain ⟨hblock, hflat⟩ := hF₁.contents hlt
  exact ⟨n, f₁, Fs₁, hF₁, hnil, hblock, hflat, hF₁.length_offsets⟩

theorem Right.few (h : Right calls) (hs : Sized calls) : Few (addedFrom 0 calls) := by
  obtain ⟨f, block, f', hrun, hfin, -⟩ := h
  obtain ⟨n, f₁, Fs, hF, hnil, -⟩ := hs.finish hrun hfin
  exact (hF.all hnil).1

theorem Few.right (h : Few (addedFrom 0 calls)) (hasc : Ascending 0 calls) (hs : Sized calls) :
    Right calls := by
  obtain ⟨f, hrun⟩ := filters_make.exists_run hasc hs.bytes h
  obtain ⟨Fs₀, hF₀⟩ := filters_make.run hs.bytes hs.keys hrun
  obtain ⟨f₁, hlast⟩ : ∃ f₁, f.generateLast = .ok f₁ := by
    unfold generateLast
    split
    · exact ⟨f, rfl⟩
    · exact hF₀.exists_generateFilter (h _)
  have hfin : f.finish = .ok (f₁.contents, { f₁ with result := f₁.contents }) := by
    rw [finish, hlast]
    rfl
  obtain ⟨n, f₂, Fs, hF, hnil, hblock, hflat, hnum⟩ := hs.finish hrun hfin
  -- the reader asks the filter of the range
  have hget : ∀ off, off / kFilterBase < n → ∃ F, Fs[off / kFilterBase]? = some F ∧
      Accepts F (rangeKeys (addedFrom 0 calls) (off / kFilterBase)) := by
    intro off hoff
    have hlt : off / kFilterBase < Fs.length := by rwa [hF.length_eq]
    exact ⟨_, List.getElem?_eq_getElem hlt, hF.accepts _ _ (List.getElem?_eq_getElem hlt)⟩
  refine ⟨f, _, _, hrun, hfin, ?_, ?_⟩
  · intro off key hkey
    obtain ⟨F, hFs, hacc⟩ := hget off ((hF.all hnil).2 _ hkey)
    rw [hblock, FilterBlockReader.keyMayMatch_filterBlock hflat hFs,
      hacc.accepts key (mem_rangeKeys hkey)]
  · intro off hoff hempty key
    obtain ⟨F, hFs, hacc⟩ := hget off (hnum ▸ hoff)
    rw [hblock, FilterBlockReader.keyMayMatch_filterBlock hflat hFs, hacc.empty hempty]
    rfl

/-- **When a filter block is right.**  For all `StartBlock` calls with non-decreasing offsets and
`AddKey` calls with any keys, all of whose sizes have 32 bits: all calls return, the block accepts
every key under the offset under which it was added, and nothing under the offset of a range without
keys, if and only if no range has so many keys that their number times ten is no `int`. -/
theorem filterBlock_right_iff (hasc : Ascending 0 calls) (hs : Sized calls) :
    Right calls ↔ ∀ i, (rangeKeys (addedFrom 0 calls) i).length * 10 < 2 ^ 31 :=
  ⟨fun h => h.few hs, fun h => Few.right h hasc hs⟩

end Right

/-- Keys of four blocks, in the first, the second and the fifth range. -/
def chunks : List Call :=
  [.startBlock 0, .addKey [102, 111, 111], .startBlock 2000, .addKey [98, 97, 114],
    .startBlock 3100, .addKey [98, 111, 120], .startBlock 9000, .addKey [98, 111, 120],
    .addKey [104, 101, 108, 108, 111]]

/-- The block of these keys is right. -/
theorem filterBlock_right_chunks : Right chunks := by
  have hlen : ∀ i, (rangeKeys (addedFrom 0 chunks) i).length ≤ 5 := length_rangeKeys_le _
  have hasc : Ascending 0 chunks := ⟨by decide, by decide, by decide, by decide, trivial⟩
  refine (filterBlock_right_iff hasc ⟨?_, ?_, ?_⟩).2 ?_
  · intro i
    exact (length_flatten_rangeKeys_le _ i).trans_lt (by decide)
  · intro i
    exact (hlen i).trans_lt (by decide)
  · intro f block f' hrun hfin
    have hsize : (Machine.run call make chunks >>= fun f => f.finish).map (fun r => r.1.length) =
        .ok 52 := by decide +kernel
    rw [hrun, Exec.ok_bind, hfin] at hsize
    have : block.length = 52 := Except.ok.inj hsize
    omega
  · intro i
    have := hlen i
    omega

/-! ### Too many keys for one filter -/

section AddKeys

variable (keys : List Bytes)

theorem ascending_addKeys (off : ℕ) : Ascending off (keys.map .addKey) := by
  induction keys with
  | nil => trivial
  | cons key keys ih => exact ih

theorem addedFrom_addKeys (off : ℕ) :
    addedFrom off (keys.map .addKey) = keys.map fun key => (off, key) := by
  induction keys with
  | nil => rfl
  | cons key keys ih => rw [List.map_cons, addedFrom, ih, List.map_cons]

theorem rangeKeys_addKeys : rangeKeys (addedFrom 0 (keys.map .addKey)) 0 = keys := by
  rw [addedFrom_addKeys, rangeKeys, List.filter_eq_self.2, List.map_map]
  · exact List.map_id keys
  · refine List.forall_mem_map.2 ?_
    intro key _
    exact decide_eq_true (Nat.zero_div kFilterBase)

theorem run_addKeys (f : FilterBlockBuilder) :
    Machine.run call f (keys.map .addKey) = .ok (keys.foldl addKey f) := by
  induction keys generalizing f with
  | nil => rfl
  | cons key keys ih => exact ih (f.addKey key)

variable {keys}

theorem sized_addKeys (hbytes : keys.flatten.length < 2 ^ 32) (hkeys : keys.length < 2 ^ 32) :
    Sized (keys.map .addKey) := by
  refine ⟨?_, ?_, ?_⟩
  · intro i
    have hle := length_flatten_rangeKeys_le (addedFrom 0 (keys.map .addKey)) i
    have hsnd : (addedFrom 0 (keys.map .addKey)).map Prod.snd = keys := by
      rw [addedFrom_addKeys, List.map_map]
      exact List.map_id keys
    rw [hsnd] at hle
    exact hle.trans_lt hbytes
  · intro i
    have hle := length_rangeKeys_le (addedFrom 0 (keys.map .addKey)) i
    rw [addedFrom_addKeys, List.length_map] at hle
    rw [addedFrom_addKeys]
    exact hle.trans_lt hkeys
  · intro f block f' hrun hfin
    rw [run_addKeys] at hrun
    obtain rfl : ofKeys keys = f := Except.ok.inj hrun
    have hsize := finish_size hfin
    obtain ⟨-, hoffsets, hresult⟩ := ofKeys_frame keys
    rw [hoffsets, hresult, List.length_nil, List.length_nil] at hsize
    omega

/-- Empty keys take no bytes, however many there are. -/
theorem sized_replicate {n : ℕ} (h : n < 2 ^ 32) : Sized ((List.replicate n []).map .addKey) := by
  apply sized_addKeys
  · rw [List.flatten_replicate_nil]
    decide
  · rwa [List.length_replicate]

theorem not_right_replicate {n : ℕ} (h : n < 2 ^ 32) (hle : 2 ^ 31 ≤ n * 10) :
    ¬ Right ((List.replicate n []).map .addKey) := by
  intro hright
  have hfew := hright.few (sized_replicate h) 0
  rw [rangeKeys_addKeys, List.length_replicate] at hfew
  omega

end AddKeys

/-- So many keys, all of them empty, that their bits are no `int`. -/
theorem filterBlock_overflows : ¬ ∀ calls : List Call, Ascending 0 calls → Sized calls →
    Right calls := by
  intro h
  obtain ⟨n, hlt, hle⟩ : ∃ n, n < 2 ^ 32 ∧ 2 ^ 31 ≤ n * 10 := ⟨214748365, by decide, by decide⟩
  exact not_right_replicate hlt hle (h _ (ascending_addKeys _ 0) (sized_replicate hlt))

end FilterBlockBuilder

end KoishiDB
