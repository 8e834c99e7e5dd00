import KoishiDB.Disk.RoundTrip
import KoishiDB.Memory.Memtable

/-!
# Writing a memtable to a table file

`disk/builder.cc`.  `BuildTable` goes through a memtable and passes every internal key with its
value to `TableBuilder::Add`; it fills the file meta on the way.  The result here also lists the
pairs that were passed to `Add`, and says what has become of the file: the source opens it without
truncating it, writes from its start on, and removes it when the build fails.

* `Holds.yields` : the iterator of a memtable gives its entries in the order of their keys.
* `buildTable_cases` : what a `BuildTable` call does with a memtable that holds entries.
* `buildTable_any` : what it does with any memtable.
-/

namespace KoishiDB

/-- What a function does to a file. -/
inductive FileEffect where
  | untouched
  /-- The bytes were written from the start of the file on. -/
  | written (bytes : Bytes)
  | removed
deriving Repr, DecidableEq

/-- The content of a file after an effect; writing without truncating keeps the old tail. -/
def FileEffect.apply : FileEffect → Option Bytes → Option Bytes
  | untouched, old => old
  | written bytes, old => some (bytes ++ (old.getD []).drop bytes.length)
  | removed, _ => none

/-- The operating system during a build: whether the file can be opened, and what its write calls
do. -/
structure BuildEnv where
  opens : Bool
  os : ℕ → WriteResult

/-- All file operations succeed. -/
def BuildEnv.Succeeds (env : BuildEnv) : Prop :=
  env.opens = true ∧ ∀ i, (env.os i).failed = false

/-- An operating system that accepts everything. -/
def BuildEnv.accepting : BuildEnv := ⟨true, fun _ => .accept kWritableFileBuffer⟩

theorem BuildEnv.accepting_succeeds : BuildEnv.accepting.Succeeds := ⟨rfl, fun _ => rfl⟩

/-- What `BuildTable` returns and leaves behind. -/
structure BuildResult where
  status : Status
  fileMeta : FileMeta
  effect : FileEffect
  /-- The pairs passed to `TableBuilder::Add`, in order. -/
  added : List (Bytes × Bytes)
deriving Repr, DecidableEq

/-- The loop of `BuildTable`: the builder, the file meta and the pairs added. -/
def buildLoop : ℕ → MemtableIterator → TableBuilder → FileMeta →
    Exec (TableBuilder × FileMeta × List (Bytes × Bytes))
  | 0, _, _, _ => .error .diverges
  | fuel + 1, it, b, m =>
    if !it.valid then .ok (b, m, [])
    else do
      let internalKey ← it.key
      let value ← it.value
      let b ← b.add internalKeyCompare internalKey value
      let it ← it.next
      let (b, m, added) ← buildLoop fuel it b { m with largestKey := internalKey }
      return (b, m, (internalKey, value) :: added)

/-- `BuildTable`; the number of nodes bounds the loop. -/
def buildTable (env : BuildEnv) (fileName : String) (m : FileMeta) (it : MemtableIterator) :
    Exec BuildResult := do
  it.seekToFirst
  if !it.valid then return ⟨.OK, m, .untouched, []⟩
  if !env.opens then
    return ⟨.make .kIOError "open file error, check the file name" "", m, .untouched, []⟩
  let internalKey ← it.key
  let m := { m with smallestKey := internalKey }
  let (b, m, added) ←
    buildLoop (it.table.nodes.length + 1) it (.make (.make env.os fileName)) m
  let (s, b) ← b.finish internalKeyCompare
  if !s.ok then return ⟨s, m, .removed, added⟩
  let m := { m with fileSize := b.fileSize }
  m.print
  return ⟨.OK, m, .written b.file.fd, added⟩

/-! ### The iterator of a memtable -/

/-- The iterator gives the pairs `l` and then ends. -/
def MemtableIterator.Yields : MemtableIterator → List (Bytes × Bytes) → Prop
  | it, [] => it.valid = false
  | it, e :: l => it.valid = true ∧ it.key = .ok e.1 ∧ it.value = .ok e.2 ∧
      ∃ it', it.next = .ok it' ∧ it'.Yields l ∧ it'.table = it.table

/-- The pair that a table stores for an entry. -/
def Entry.pair (e : Entry) : Bytes × Bytes := (e.internalKey, e.value)

theorem Entry.Fits.entryFits {e : Entry} (h : e.Fits) : BlockIterator.EntryFits e.pair := by
  have hfit := h.1
  unfold KeyFits at hfit
  refine ⟨?_, ?_⟩
  · change (createInternalKey _ _ _).length < _
    rw [length_createInternalKey]
    omega
  · change e.value.length < _
    omega

theorem yields_of_linked {s : SkipList Bytes} {p : Ptr} {is : List ℕ} {es : List Entry}
    {it : SkipList.Iterator} (h : s.Linked 0 p is) (hit : s.getNNode p 0 = .ok it.node)
    (hes : List.Forall₂ (fun i e => s.keyAt i = .ok e.memtableKey ∧ e.Fits) is es) :
    (MemtableIterator.mk s it).Yields (es.map Entry.pair) := by
  induction hes generalizing p it with
  | nil =>
    have h : s.getNNode p 0 = .ok none := h
    rw [h] at hit
    simp [MemtableIterator.Yields, MemtableIterator.valid, SkipList.Iterator.valid,
      ← Except.ok.inj hit]
  | @cons i e is es hie hrest ih =>
    obtain ⟨hkey, hfits⟩ := hie
    have hnode : it.node = some i := by
      rw [h.1] at hit
      exact (Except.ok.inj hit).symm
    obtain ⟨q, hq⟩ := SkipList.Linked.exists_getNNode h.2
    -- The memtable key of an entry that fits is taken apart into its internal key and value.
    have hik : extractInternalKey e.memtableKey = .ok e.internalKey :=
      extractInternalKey_create _ _ _ hfits.1.key_lt
    have hval : extractValueFromMemtable e.memtableKey = .ok e.value :=
      extractValueFromMemtable_create _ _ hfits.1
    refine ⟨by simp [MemtableIterator.valid, SkipList.Iterator.valid, hnode], ?_, ?_,
      ⟨s, ⟨q⟩⟩, ?_, ih h.2 hq, rfl⟩
    · simp [MemtableIterator.key, SkipList.Iterator.key, hnode, hkey, hik, Entry.pair]
    · simp [MemtableIterator.value, SkipList.Iterator.key, hnode, hkey, hval, Entry.pair]
    · simp [MemtableIterator.next, SkipList.Iterator.next, hnode, hq]

theorem forall₂_filterMap {es : List Entry} {P : ℕ → Entry → Prop} {order : List ℕ}
    (h : ∀ i ∈ order, ∃ e, es[i]? = some e ∧ P i e) :
    List.Forall₂ P order (order.filterMap fun i => es[i]?) := by
  induction order with
  | nil => exact .nil
  | cons i order ih =>
    obtain ⟨e, he, hp⟩ := h i (List.mem_cons_self ..)
    rw [List.filterMap_cons, he]
    exact .cons hp (ih fun j hj => h j (List.mem_cons_of_mem _ hj))

/-- **A memtable gives its entries in the order of their keys.** -/
theorem Holds.yields {m : Memtable} {es : List Entry} (h : Holds m es) :
    ∃ (it : MemtableIterator) (es' : List Entry), MemtableIterator.make m = .ok it ∧
      it.table = m.table ∧ it.Yields (es'.map Entry.pair) ∧ es'.Perm es ∧
      es'.Pairwise fun a b => a.rank < b.rank := by
  obtain ⟨order, hr⟩ := h.rep
  have hlen : m.table.nodes.length = es.length := by simpa using congrArg List.length h.nodes
  have hnode : ∀ (i : ℕ) (e : Entry), es[i]? = some e →
      ∃ n : Node Bytes, m.table.nodes[i]? = some n ∧ n.key = e.memtableKey := by
    intro i e he
    have := congrArg (fun l : List Bytes => l[i]?) h.nodes
    simp only [List.getElem?_map, he, Option.map_some] at this
    exact Option.map_eq_some_iff.1 this
  -- the node `i` is the one of the `i`-th insertion
  have hentry : ∀ i ∈ order, ∃ e, es[i]? = some e ∧
      (m.table.keyAt i = .ok e.memtableKey ∧ e.Fits) := by
    intro i hi
    have hi : i < es.length := hlen ▸ hr.mem_iff.1 hi
    obtain ⟨n, hn, hk⟩ := hnode i es[i] (List.getElem?_eq_getElem hi)
    exact ⟨es[i], List.getElem?_eq_getElem hi, SkipList.keyAt_eq_ok.2 ⟨n, hn, hk⟩,
      h.fits _ (List.getElem_mem hi)⟩
  have hlinked : m.table.Linked 0 .head order := by
    have := hr.linked 0 (by decide)
    rwa [hr.filter_zero] at this
  obtain ⟨q, hq⟩ : ∃ q, m.table.getNNode .head 0 = .ok q := by
    cases order with
    | nil => exact ⟨none, hlinked⟩
    | cons i is => exact ⟨some i, hlinked.1⟩
  refine ⟨⟨m.table, ⟨q⟩⟩, order.filterMap fun i => es[i]?, ?_, rfl,
    yields_of_linked hlinked hq (forall₂_filterMap hentry), ?_, ?_⟩
  · simp [MemtableIterator.make, SkipList.Iterator.make, hq]
  · have hperm := hr.perm
    rw [hlen] at hperm
    refine (hperm.filterMap _).trans (List.Perm.of_eq ?_)
    exact SkipList.filterMap_range es
  · rw [List.pairwise_filterMap]
    apply hr.sorted.imp
    intro i j hij a ha b hb
    obtain ⟨n, hn, hk⟩ := hnode i a ha
    obtain ⟨n', hn', hk'⟩ := hnode j b hb
    have hfa := (h.fits a (List.mem_of_getElem? ha)).memtableKeyRank
    have hfb := (h.fits b (List.mem_of_getElem? hb)).memtableKeyRank
    simpa [SkipList.rankOf, hn, hn', hk, hk', hfa, hfb] using hij

/-! ### What `BuildTable` does -/

section BuildTable

variable {it : MemtableIterator} {l : List (Bytes × Bytes)} {env : BuildEnv} {name : String}
  {m : FileMeta} {r : BuildResult}

/-- The loop of `BuildTable` is the `Add` calls for what the iterator gives. -/
theorem buildLoop_eq {b : TableBuilder} {fuel : ℕ} (h : it.Yields l) (hf : l.length < fuel) :
    buildLoop fuel it b m = (b.addAll internalKeyCompare l >>= fun b =>
      .ok (b, { m with largestKey := (l.getLast?.map Prod.fst).getD m.largestKey }, l)) := by
  induction l generalizing it b m fuel with
  | nil =>
    obtain ⟨fuel, rfl⟩ := Nat.exists_eq_succ_of_ne_zero (show fuel ≠ 0 by omega)
    have hv : it.valid = false := h
    simp [buildLoop, hv, TableBuilder.addAll]
  | cons e l ih =>
    obtain ⟨fuel, rfl⟩ := Nat.exists_eq_succ_of_ne_zero (show fuel ≠ 0 by omega)
    obtain ⟨hv, hk, hval, it', hn, hy, -⟩ := h
    simp only [List.length_cons] at hf
    -- The largest key is set to each key in turn; only the last one remains.
    have hlast : ∀ k, ((e :: l).getLast?.map Prod.fst).getD k =
        (l.getLast?.map Prod.fst).getD e.1 := by
      intro k
      cases l with
      | nil => rfl
      | cons e' l =>
        rw [List.getLast?_cons_cons]
        cases hl : (e' :: l).getLast? with
        | none => simp at hl
        | some x => rfl
    have hcons : b.addAll internalKeyCompare (e :: l) =
        (b.add internalKeyCompare e.1 e.2 >>= fun b => b.addAll internalKeyCompare l) := rfl
    simp only [buildLoop, hv, Bool.not_true, Bool.false_eq_true, ↓reduceIte, hk, hval, hn,
      Exec.ok_bind, ih hy (show l.length < fuel by omega), hcons, hlast]
    cases b.add internalKeyCompare e.1 e.2 with
    | error err => rfl
    | ok b₁ =>
      simp only [Exec.ok_bind]
      cases TableBuilder.addAll internalKeyCompare b₁ l with
      | error err => rfl
      | ok b₂ => rfl

/-- The key of the first pair; the empty string for the empty list. -/
def firstKeyOf (l : List (Bytes × Bytes)) : Bytes := (l.head?.map Prod.fst).getD []

/-- The file meta that `BuildTable` fills in, but for the file size. -/
def keyedMeta (m : FileMeta) (l : List (Bytes × Bytes)) : FileMeta :=
  { m with smallestKey := firstKeyOf l, largestKey := lastKeyOf l }

/-- The steps of a `BuildTable` call that returns. -/
theorem buildTable_cases (hy : it.Yields l) (hlen : l.length ≤ it.table.nodes.length)
    (h : buildTable env name m it = .ok r) :
    l ≠ [] ∧ (env.opens = false ∧ r.status ≠ .OK ∧ r.fileMeta = m ∧ r.effect = .untouched ∧
        r.added = [] ∨
      env.opens = true ∧ r.added = l ∧ ∃ b,
        TableBuilder.build internalKeyCompare env.os name l = .ok (r.status, b) ∧
        (r.status ≠ .OK ∧ r.fileMeta = keyedMeta m l ∧ r.effect = .removed ∨
          r.status = .OK ∧ r.fileMeta = { keyedMeta m l with fileSize := b.fileSize } ∧
            r.effect = .written b.file.fd)) := by
  obtain ⟨_, hseek, h₁⟩ := Exec.bind_eq_ok.1 h
  have hvalid : it.valid = true := Exec.require_eq_ok.1 hseek
  have hne : l ≠ [] := by
    rintro rfl
    exact absurd (hvalid.symm.trans hy) (by decide)
  refine ⟨hne, ?_⟩
  simp only [hvalid, Bool.not_true, Bool.false_eq_true, ↓reduceIte] at h₁
  split at h₁
  · rename_i hopen
    cases h₁
    exact .inl ⟨by simpa using hopen, by simp [Status.make], rfl, rfl, rfl⟩
  · rename_i hopen
    obtain ⟨e, l, rfl⟩ := List.exists_cons_of_ne_nil hne
    have hkey : it.key = .ok e.1 := hy.2.1
    rw [hkey, Exec.ok_bind, buildLoop_eq hy (Nat.lt_succ_of_le hlen)] at h₁
    obtain ⟨⟨b₁, m₁, added⟩, hadd, h₂⟩ := Exec.bind_eq_ok.1 h₁
    obtain ⟨b₂, hb₂, hadd⟩ := Exec.bind_eq_ok.1 hadd
    cases hadd
    obtain ⟨⟨st, b₃⟩, hfin, h₃⟩ := Exec.bind_eq_ok.1 h₂
    have hbuild : TableBuilder.build internalKeyCompare env.os name (e :: l) = .ok (st, b₃) := by
      rw [TableBuilder.build, hb₂]; exact hfin
    -- the loop sets the largest key anew for each entry
    have hmeta : ({ m with smallestKey := e.1, largestKey := (((e :: l).getLast?.map
        Prod.fst).getD m.largestKey) } : FileMeta) = keyedMeta m (e :: l) := by
      unfold keyedMeta firstKeyOf lastKeyOf
      cases hl : (e :: l).getLast? with
      | none => simp at hl
      | some x => rfl
    dsimp only at h₃
    rw [hmeta] at h₃
    split at h₃
    · rename_i hst
      cases h₃
      exact .inr ⟨by simpa using hopen, rfl, b₃, hbuild, .inl ⟨TableBuilder.not_ok_iff.1 hst, rfl,
        rfl⟩⟩
    · rename_i hst
      have hok : st = .OK := not_not.1 (mt TableBuilder.not_ok_iff.2 hst)
      obtain ⟨_, -, h₄⟩ := Exec.bind_eq_ok.1 h₃
      cases h₄
      exact .inr ⟨by simpa using hopen, rfl, b₃, by rw [hbuild, hok], .inr ⟨rfl, rfl, rfl⟩⟩

/-- What an iterator of a memtable gives; there is a node for every pair. -/
theorem Holds.exists_yields {mt : Memtable} {es : List Entry} (hm : Holds mt es)
    (hit : MemtableIterator.make mt = .ok it) :
    ∃ es' : List Entry, es'.Perm es ∧ (es'.Pairwise fun a b => a.rank < b.rank) ∧
      (∀ e ∈ es', e.Fits) ∧ it.Yields (es'.map Entry.pair) ∧
      (es'.map Entry.pair).length ≤ it.table.nodes.length := by
  obtain ⟨it', es', hit', htable, hy, hperm, hsorted⟩ := hm.yields
  cases hit.symm.trans hit'
  refine ⟨es', hperm, hsorted, fun e he => hm.fits e (hperm.mem_iff.1 he), hy, ?_⟩
  have := congrArg List.length hm.nodes
  simp only [List.length_map] at this ⊢
  rw [htable, this, hperm.length_eq]

/-- The steps of a `BuildTable` call on a memtable, when the file opens: all entries are passed to
the builder, in the order of their keys. -/
theorem Holds.buildTable_cases {mt : Memtable} {es : List Entry} (hm : Holds mt es)
    (hit : MemtableIterator.make mt = .ok it) (hopens : env.opens = true)
    (h : buildTable env name m it = .ok r) :
    ∃ es' : List Entry, es'.Perm es ∧ (es'.Pairwise fun a b => a.rank < b.rank) ∧ es' ≠ [] ∧
      r.added = es'.map Entry.pair ∧ ∃ b,
      TableBuilder.build internalKeyCompare env.os name r.added = .ok (r.status, b) ∧
      (r.status ≠ .OK ∧ r.fileMeta = keyedMeta m r.added ∧ r.effect = .removed ∨
        r.status = .OK ∧ r.fileMeta = { keyedMeta m r.added with fileSize := b.fileSize } ∧
          r.effect = .written b.file.fd) := by
  obtain ⟨es', hperm, hsorted, -, hy, hlen⟩ := hm.exists_yields hit
  obtain ⟨hne, ⟨hclosed, -⟩ | ⟨-, hadded, hbuild⟩⟩ := KoishiDB.buildTable_cases hy hlen h
  · rw [hopens] at hclosed
    cases hclosed
  · exact ⟨es', hperm, hsorted, fun hnil => hne (by rw [hnil]; rfl), hadded,
      by rw [hadded]; exact hbuild⟩

end BuildTable

/-! ### Building from any iterator -/

section AnyIterator

variable {it : MemtableIterator} {env : BuildEnv} {name : String} {m : FileMeta} {r : BuildResult}

theorem MemtableIterator.next_table {it' : MemtableIterator} (h : it.next = .ok it') :
    it'.table = it.table := by
  obtain ⟨iter, -, h⟩ := Exec.bind_eq_ok.1 h
  cases h
  rfl

/-- The key of an iterator is the internal key of a node. -/
theorem MemtableIterator.exists_node_of_key {k : Bytes} (h : it.key = .ok k) :
    ∃ n ∈ it.table.nodes, extractInternalKey n.key = .ok k := by
  obtain ⟨key, hkey, h⟩ := Exec.bind_eq_ok.1 h
  unfold SkipList.Iterator.key at hkey
  split at hkey
  · obtain ⟨n, hn, rfl⟩ := SkipList.keyAt_eq_ok.1 hkey
    exact ⟨n, List.mem_of_getElem? hn, h⟩
  · cases hkey

/-- The loop of `BuildTable` adds internal keys of nodes, and nothing else happens to the
builder. -/
theorem buildLoop_cases {os : ℕ → WriteResult} {fuel : ℕ} {b b' : TableBuilder} {m' : FileMeta}
    {added : List (Bytes × Bytes)} (hb : TableBuilder.Adding os b)
    (h : buildLoop fuel it b m = .ok (b', m', added)) :
    TableBuilder.Adding os b' ∧
      ∀ e ∈ added, ∃ n ∈ it.table.nodes, extractInternalKey n.key = .ok e.1 := by
  induction fuel generalizing it b m added with
  | zero => cases h
  | succ fuel ih =>
    simp only [buildLoop] at h
    split at h
    · cases h
      exact ⟨hb, by simp⟩
    · obtain ⟨k, hk, h⟩ := Exec.bind_eq_ok.1 h
      obtain ⟨v, -, h⟩ := Exec.bind_eq_ok.1 h
      obtain ⟨b₁, hadd, h⟩ := Exec.bind_eq_ok.1 h
      obtain ⟨it₁, hnext, h⟩ := Exec.bind_eq_ok.1 h
      obtain ⟨⟨b₂, m₂, added₂⟩, hloop, h⟩ := Exec.bind_eq_ok.1 h
      cases h
      obtain ⟨hb', hadded⟩ := ih (TableBuilder.add_adding hb hadd) hloop
      rw [MemtableIterator.next_table hnext] at hadded
      refine ⟨hb', List.forall_mem_cons.2 ⟨MemtableIterator.exists_node_of_key hk, hadded⟩⟩

/-- **What a `BuildTable` call does, whatever the memtable holds**: it adds internal keys of nodes,
and it returns OK when all file operations succeed. -/
theorem buildTable_any (h : buildTable env name m it = .ok r) :
    (∀ e ∈ r.added, ∃ n ∈ it.table.nodes, extractInternalKey n.key = .ok e.1) ∧
      (env.Succeeds → r.status = .OK) := by
  obtain ⟨_, hseek, h₁⟩ := Exec.bind_eq_ok.1 h
  have hvalid : it.valid = true := Exec.require_eq_ok.1 hseek
  simp only [hvalid, Bool.not_true, Bool.false_eq_true, ↓reduceIte] at h₁
  split at h₁
  · rename_i hopen
    cases h₁
    exact ⟨by simp, fun hs => by simp [hs.1] at hopen⟩
  · obtain ⟨k, -, h₂⟩ := Exec.bind_eq_ok.1 h₁
    obtain ⟨⟨b₁, m₁, added⟩, hloop, h₃⟩ := Exec.bind_eq_ok.1 h₂
    obtain ⟨hb, hadded⟩ := buildLoop_cases (TableBuilder.adding_make env.os name) hloop
    obtain ⟨⟨st, b₂⟩, hfin, h₄⟩ := Exec.bind_eq_ok.1 h₃
    -- The status of `Finish` is OK if all its own writes are accepted.
    have hstatus : env.Succeeds → st = .OK := by
      intro hs
      obtain ⟨b₃, hblocks, rfl, -⟩ := TableBuilder.finish_cases hfin
      apply (TableBuilder.finishBlocks_checked hb.empty hblocks).ok_iff.2
      intro i _ _
      rw [hb.os_eq]
      exact hs.2 i
    dsimp only at h₄
    split at h₄
    · cases h₄
      exact ⟨hadded, hstatus⟩
    · obtain ⟨_, -, h₅⟩ := Exec.bind_eq_ok.1 h₄
      cases h₅
      exact ⟨hadded, fun _ => rfl⟩

end AnyIterator

end KoishiDB
