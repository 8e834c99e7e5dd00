import KoishiDB.Db.DBimpl

/-!
# The manifest

What `DumpManifest` writes and what `ReadManifest` makes of it.

* `dumpManifest_spec` : the bytes of a manifest.
* `readManifest_spec` : the last sequence number is read back, and `sstable_number_` becomes the
  number of file metas.
* `readMetas_encode` : file metas whose numbers fit are read back.
* `recovers_iff` : when a new database has the tables and the last sequence number of the one that
  dumped its manifest.  The header is appended as a zero-terminated string: without tables it is
  empty, and a last sequence number of zero is left out.
-/

namespace KoishiDB

namespace DBimpl

/-- The bytes of a manifest with the given file metas and last sequence number. -/
def manifestBytes (metas : List FileMeta) (lastSequence : ℕ) : Bytes :=
  cString (putVarint64 (putVarint32 metas.length []) lastSequence) ++ metas.flatMap FileMeta.encode

/-- The loop of `DumpManifest` appends the file metas. -/
theorem dumpMetas_spec {metas : List FileMeta} {f f' : WritableFile}
    (hos : ∀ i, (f.os i).failed = false) (hbuf : f.buf = [])
    (h : metas.foldlM (fun (file : WritableFile) (m : FileMeta) => (do
      m.print
      return ((file.append m.encode).2.flush).2 : Exec WritableFile)) f = .ok f') :
    f'.fd = f.fd ++ metas.flatMap FileMeta.encode := by
  induction metas generalizing f with
  | nil => cases h; simp
  | cons m metas ih =>
    obtain ⟨f₁, hm, h⟩ := Exec.bind_eq_ok.1 h
    obtain ⟨_, -, hm⟩ := Exec.bind_eq_ok.1 hm
    rw [Exec.pure_eq, Except.ok.injEq] at hm
    subst hm
    obtain ⟨h1, h2, h3⟩ := WritableFile.append_flush_of_accepting hos hbuf m.encode
    rw [ih (by rw [h1]; exact hos) h2 h, h3, List.flatMap_cons, List.append_assoc]

/-- **What `DumpManifest` writes**, when all file operations succeed. -/
theorem dumpManifest_spec {db : DBimpl} {env : BuildEnv} {effect : FileEffect}
    (hs : env.Succeeds) (h : db.dumpManifest env = .ok effect) :
    effect = .written (manifestBytes db.fileMetas db.lastSequence) := by
  obtain ⟨f, hf, h⟩ := Exec.bind_eq_ok.1 h
  simp only [hs.1, ↓reduceIte] at hf h
  cases h
  obtain ⟨h1, h2, h3⟩ := WritableFile.append_flush_of_accepting (f := .make env.os "manifest")
    hs.2 rfl (cString db.manifestHeader)
  rw [dumpMetas_spec (by rw [h1]; exact hs.2) h2 hf, h3]
  rfl

theorem length_flatMap_encode_ge (metas : List FileMeta) :
    metas.length ≤ (metas.flatMap FileMeta.encode).length := by
  induction metas with
  | nil => simp
  | cons m metas ih =>
    have : 0 < m.encode.length := by
      have : 0 < (encodeVarint64 m.fileSize).length :=
        Leb128.length_encode_pos (n := 10) (by decide)
      simp only [FileMeta.encode, List.length_append]
      omega
    rw [List.flatMap_cons, List.length_append, List.length_cons]
    omega

/-- The loop of `ReadManifest` calls `DecodeFileMeta` again and again. -/
theorem readMetas_eq (garbage n : ℕ) (slice : Bytes) :
    readMetas garbage n slice = (decodeList (FileMeta.decode garbage) n slice).map Prod.fst := by
  induction n generalizing slice with
  | zero => rfl
  | succ n ih =>
    rw [readMetas, decodeList]
    cases FileMeta.decode garbage slice with
    | error e => rfl
    | ok x =>
      simp only [Exec.ok_bind, ih]
      cases decodeList (FileMeta.decode garbage) n x.2 <;> rfl

/-- File metas whose numbers have 64 bits are read back, whatever follows. -/
theorem readMetas_encode {metas : List FileMeta} (h : ∀ m ∈ metas, m.Fits) (garbage : ℕ)
    (rest : Bytes) :
    readMetas garbage metas.length (metas.flatMap FileMeta.encode ++ rest) = .ok metas := by
  rw [readMetas_eq, decodeList_flatMap (fun m hm => FileMeta.decode_encode (h m hm) garbage)]
  rfl

/-- `ReadManifest` sets the list of tables and the two counters. -/
theorem readManifest_frame {db db' : DBimpl} {garbage : ℕ} {content : Bytes}
    (h : db.readManifest garbage content = .ok db') :
    ∃ fileMetas lastSequence sstableNumber,
      db' = { db with fileMetas, lastSequence, sstableNumber } := by
  unfold readManifest at h
  split at h
  · cases h
  · obtain ⟨⟨count, slice⟩, -, h⟩ := Exec.bind_eq_ok.1 h
    obtain ⟨read, -, h⟩ := Exec.bind_eq_ok.1 h
    cases h
    exact ⟨_, _, _, rfl⟩

/-- A new database has no writers, no entries and no threads. -/
theorem make_frame {u : Uninit} {manifest : Option Bytes} {db : DBimpl}
    (h : make u manifest = .ok db) :
    db.writers = [] ∧ db.memtable = .make u.size ∧ db.immutableMemtable = none ∧ db.tasks = 0 := by
  cases manifest with
  | none => cases h; exact ⟨rfl, rfl, rfl, rfl⟩
  | some content =>
    obtain ⟨_, _, _, rfl⟩ := readManifest_frame h
    exact ⟨rfl, rfl, rfl, rfl⟩

/-- A manifest that fits into the buffer has a number of file metas of 32 bits. -/
theorem length_lt_of_le {metas : List FileMeta} {lastSequence : ℕ} {rest : Bytes}
    (h : (manifestBytes metas lastSequence ++ rest).length ≤ kManifestReserved) :
    metas.length < 2 ^ 32 := by
  have := length_flatMap_encode_ge metas
  simp only [manifestBytes, List.length_append, kManifestReserved] at h
  omega

/-- A manifest whose header has no zero. -/
theorem manifestBytes_of_pos {metas : List FileMeta} {lastSequence : ℕ} (hne : metas ≠ [])
    (hcount : metas.length < 2 ^ 32) (hseq : 0 < lastSequence) (hlt : lastSequence < 2 ^ 64) :
    manifestBytes metas lastSequence = encodeVarint32 metas.length ++
      (encodeVarint64 lastSequence ++ metas.flatMap FileMeta.encode) := by
  have hpos : 0 < metas.length := List.length_pos_iff.2 hne
  have hheader : cString (putVarint64 (putVarint32 metas.length []) lastSequence) =
      encodeVarint32 metas.length ++ encodeVarint64 lastSequence := by
    refine cString_eq_self.2 ?_
    simp only [putVarint64, putVarint32, List.nil_append, List.mem_append, not_or]
    exact ⟨zero_notMem_encodeVarint32 hpos hcount, zero_notMem_encodeVarint64 hseq hlt⟩
  rw [manifestBytes, hheader, List.append_assoc]

/-- **What `ReadManifest` makes of a manifest** with at least one file meta. -/
theorem readManifest_spec {db db' : DBimpl} {metas : List FileMeta} {lastSequence garbage : ℕ}
    {rest : Bytes} (hne : metas ≠ []) (hseq : 0 < lastSequence) (hlt : lastSequence < 2 ^ 64)
    (h : db.readManifest garbage (manifestBytes metas lastSequence ++ rest) = .ok db') :
    metas.length < 2 ^ 32 ∧
    ∃ read, readMetas garbage metas.length (metas.flatMap FileMeta.encode ++ rest) = .ok read ∧
      db' = { db with
        fileMetas := db.fileMetas ++ read, lastSequence, sstableNumber := metas.length } := by
  unfold readManifest at h
  split at h
  · cases h
  · rename_i hlen
    have hcount := length_lt_of_le (not_lt.1 hlen)
    rw [manifestBytes_of_pos hne hcount hseq hlt] at h
    simp only [List.append_assoc, getVarint32_encode hcount, FileMeta.getVarint64Or_encode hlt,
      Exec.pure_eq, Exec.ok_bind] at h
    obtain ⟨read, hread, h⟩ := Exec.bind_eq_ok.1 h
    cases h
    exact ⟨hcount, read, hread, rfl⟩

/-- The manifest has the file metas `metas` and the last sequence number `L`; a directory without a
manifest has no tables. -/
def Lists (manifest : Option Bytes) (metas : List FileMeta) (L : ℕ) : Prop :=
  manifest = none ∧ metas = [] ∧ L = 1 ∨
    metas ≠ [] ∧ ∃ rest, manifest = some (manifestBytes metas L ++ rest)

/-- **A new database** has the tables and the last sequence number of the manifest. -/
theorem make_of_lists {u : Uninit} {manifest : Option Bytes} {db : DBimpl} {metas : List FileMeta}
    {L : ℕ} (h : Lists manifest metas L) (hpos : 0 < L) (hlt : L < 2 ^ 64)
    (hfits : ∀ m ∈ metas, m.Fits) (hmake : make u manifest = .ok db) :
    db.fileMetas = metas ∧ db.lastSequence = L ∧ db.sstableNumber < 2 ^ 64 := by
  rcases h with ⟨rfl, rfl, rfl⟩ | ⟨hne, rest, rfl⟩
  · cases hmake
    exact ⟨rfl, rfl, by change 1 < _; decide⟩
  · obtain ⟨hcount, read, hmetas, rfl⟩ := readManifest_spec hne hpos hlt hmake
    cases hmetas.symm.trans (readMetas_encode hfits u.number rest)
    exact ⟨rfl, rfl, by change metas.length < _; omega⟩

/-! ### Recovery -/

section Recovery

variable {db db' : DBimpl} {env : BuildEnv} {metas : List FileMeta} {garbage lastSequence : ℕ}
  {content rest : Bytes}

/-- `DumpManifest` goes through if every key has the eight bytes behind the user key. -/
theorem exists_dumpManifest : (∃ effect, db.dumpManifest env = .ok effect) ↔
    ∀ m ∈ db.fileMetas, 8 ≤ m.smallestKey.length ∧ 8 ≤ m.largestKey.length := by
  have hloop : ∀ (metas : List FileMeta) (f : WritableFile),
      (∃ f', metas.foldlM (fun (file : WritableFile) (m : FileMeta) => (do
        m.print
        return ((file.append m.encode).2.flush).2 : Exec WritableFile)) f = .ok f') ↔
      ∀ m ∈ metas, 8 ≤ m.smallestKey.length ∧ 8 ≤ m.largestKey.length := by
    intro metas
    induction metas with
    | nil => simp
    | cons m metas ih =>
      intro f
      rw [List.forall_mem_cons, ← ih ((f.append m.encode).2.flush).2, ← FileMeta.print_eq_ok (x := ()),
        List.foldlM_cons]
      cases hm : m.print with
      | error e => simp
      | ok x => simp
  rw [← hloop]
  constructor
  · rintro ⟨effect, h⟩
    obtain ⟨f, hf, -⟩ := Exec.bind_eq_ok.1 h
    exact ⟨f, hf⟩
  · rintro ⟨f, hf⟩
    exact ⟨_, Exec.bind_eq_ok.2 ⟨f, hf, rfl⟩⟩

/-- A manifest with tables and a last sequence number that is not zero is read back. -/
theorem readManifest_manifestBytes (hfits : ∀ m ∈ metas, m.Fits) (hne : metas ≠ [])
    (hseq : 0 < lastSequence) (hlt : lastSequence < 2 ^ 64)
    (hlen : (manifestBytes metas lastSequence ++ rest).length ≤ kManifestReserved) :
    db.readManifest garbage (manifestBytes metas lastSequence ++ rest) = .ok { db with
      fileMetas := db.fileMetas ++ metas, lastSequence, sstableNumber := metas.length } := by
  have hcount := length_lt_of_le hlen
  unfold readManifest
  rw [if_neg (not_lt.2 hlen), manifestBytes_of_pos hne hcount hseq hlt]
  simp only [List.append_assoc, getVarint32_encode hcount, FileMeta.getVarint64Or_encode hlt,
    readMetas_encode hfits, Exec.pure_eq, Exec.ok_bind]

/-- What `ReadManifest` sets, when it goes through. -/
theorem readManifest_cases (h : db.readManifest garbage content = .ok db') :
    content.length ≤ kManifestReserved ∧ ∃ count slice read,
      getVarint32 content = .ok (count, slice) ∧
      readMetas garbage count (FileMeta.getVarint64Or garbage slice).2 = .ok read ∧
      db' = { db with
        fileMetas := db.fileMetas ++ read
        lastSequence := (FileMeta.getVarint64Or garbage slice).1
        sstableNumber := count } := by
  unfold readManifest at h
  split at h
  · cases h
  · rename_i hlen
    obtain ⟨⟨count, slice⟩, hcount, h⟩ := Exec.bind_eq_ok.1 h
    obtain ⟨read, hread, h⟩ := Exec.bind_eq_ok.1 h
    cases h
    exact ⟨not_lt.1 hlen, count, slice, read, hcount, hread, rfl⟩

/-- The first two numbers of a file meta. -/
theorem decode_numbers {a c : ℕ} (ha : a < 2 ^ 64) (hc : c < 2 ^ 64) {m : FileMeta} {slice : Bytes}
    (h : FileMeta.decode garbage (encodeVarint64 a ++ (encodeVarint64 c ++ rest)) =
      .ok (m, slice)) : m.fileSize = a ∧ m.number = c := by
  simp only [FileMeta.decode, FileMeta.getVarint64Or_encode ha,
    FileMeta.getVarint64Or_encode hc] at h
  obtain ⟨x, -, h⟩ := Exec.bind_eq_ok.1 h
  obtain ⟨y, -, h⟩ := Exec.bind_eq_ok.1 h
  cases h
  exact ⟨rfl, rfl⟩

/-- **The header without the last sequence number.**  A zero at the end of the header is not
written; the reader takes the size of the first table for it, and every number behind it for the
one before. -/
theorem readManifest_zero (hfits : ∀ m ∈ metas, m.Fits)
    (hkeys : ∀ m ∈ metas, 0 < m.smallestKey.length) (hne : metas ≠ [])
    (h : db.readManifest garbage (manifestBytes metas 0 ++ rest) = .ok db') :
    ¬ (db'.fileMetas = db.fileMetas ++ metas ∧ db'.lastSequence = 0) := by
  obtain ⟨hlen, count, slice, read, hcount, hread, rfl⟩ := readManifest_cases h
  have hlt := length_lt_of_le hlen
  cases metas with
  | nil => exact absurd rfl hne
  | cons m metas =>
    obtain ⟨h1, h2, h3, -⟩ := hfits m (by simp)
    -- The header is written up to its first zero byte, so the file size follows the count.
    have hbytes : manifestBytes (m :: metas) 0 ++ rest = encodeVarint32 (m :: metas).length ++
        (encodeVarint64 m.fileSize ++ (encodeVarint64 m.number ++
          (encodeVarint64 m.smallestKey.length ++ (m.smallestKey ++
            (encodeVarint64 m.largestKey.length ++ (m.largestKey ++
              (metas.flatMap FileMeta.encode ++ rest))))))) := by
      have hzero : 0 ∉ encodeVarint32 (m :: metas).length :=
        zero_notMem_encodeVarint32 (by simp) hlt
      rw [manifestBytes, putVarint64, putVarint32, List.nil_append, cString_append hzero]
      have : cString (encodeVarint64 0) = [] := by decide
      simp only [this, List.append_nil, List.flatMap_cons, FileMeta.encode, List.append_assoc]
    rw [hbytes, getVarint32_encode hlt] at hcount
    cases hcount
    rw [FileMeta.getVarint64Or_encode h1] at hread ⊢
    obtain ⟨⟨m', slice⟩, hm', hread⟩ := Exec.bind_eq_ok.1 hread
    obtain ⟨ms, -, hread⟩ := Exec.bind_eq_ok.1 hread
    cases hread
    obtain ⟨hsize, hnumber⟩ := decode_numbers h2 h3 hm'
    rintro ⟨hmetas, hlast⟩
    obtain ⟨rfl, -⟩ := List.cons.inj (List.append_cancel_left hmetas)
    have hpos := hkeys m' (by simp)
    have hlast : m'.fileSize = 0 := hlast
    omega

/-- `DumpManifest` over a manifest with the content `old`, and then a new database: it has the same
list of tables and the same last sequence number. -/
def Recovers (env : BuildEnv) (old : Option Bytes) (u : Uninit) (db : DBimpl) : Prop :=
  ∃ effect db', db.dumpManifest env = .ok effect ∧ make u (effect.apply old) = .ok db' ∧
    db'.fileMetas = db.fileMetas ∧ db'.lastSequence = db.lastSequence

/-- The manifest starts with the number of tables 0 and the last sequence number. -/
def StartsEmpty (content : Bytes) (lastSequence : ℕ) : Prop :=
  ∃ slice rest, getVarint32 content = .ok (0, slice) ∧
    getVarint64 slice = some (lastSequence, rest)

theorem manifestBytes_nil (lastSequence : ℕ) : manifestBytes [] lastSequence = [] := by
  have h0 : encodeVarint32 0 = [0] := by decide
  simp [manifestBytes, putVarint64, putVarint32, h0, cString]

/-- What is in the manifest after `DumpManifest`: an older manifest keeps its tail. -/
theorem recovers_content (hs : env.Succeeds) {old : Option Bytes} {u : Uninit}
    (h : Recovers env old u db) :
    (∀ m ∈ db.fileMetas, 8 ≤ m.smallestKey.length ∧ 8 ≤ m.largestKey.length) ∧
    ∃ db', { fresh u with lastSequence := u.number, sstableNumber := u.number }.readManifest
        u.number (manifestBytes db.fileMetas db.lastSequence ++
          (old.getD []).drop (manifestBytes db.fileMetas db.lastSequence).length) = .ok db' ∧
      db'.fileMetas = db.fileMetas ∧ db'.lastSequence = db.lastSequence := by
  obtain ⟨effect, db', hdump, hmake, hrec⟩ := h
  refine ⟨exists_dumpManifest.1 ⟨effect, hdump⟩, db', ?_, hrec⟩
  rw [dumpManifest_spec hs hdump] at hmake
  exact hmake

theorem recovers_of_read (hs : env.Succeeds) {old : Option Bytes} {u : Uninit}
    (hkeys : ∀ m ∈ db.fileMetas, 8 ≤ m.smallestKey.length ∧ 8 ≤ m.largestKey.length)
    (hread : { fresh u with lastSequence := u.number, sstableNumber := u.number }.readManifest
        u.number (manifestBytes db.fileMetas db.lastSequence ++
          (old.getD []).drop (manifestBytes db.fileMetas db.lastSequence).length) = .ok db')
    (hrec : db'.fileMetas = db.fileMetas ∧ db'.lastSequence = db.lastSequence) :
    Recovers env old u db := by
  obtain ⟨effect, hdump⟩ := exists_dumpManifest.2 hkeys
  refine ⟨effect, db', hdump, ?_, hrec⟩
  rw [dumpManifest_spec hs hdump]
  exact hread

/-- A database without tables writes nothing: it is recovered if the manifest that is there already
says so. -/
theorem recovers_nil_iff (hs : env.Succeeds) (old : Option Bytes) (hnil : db.fileMetas = []) :
    (∀ u, Recovers env old u db) ↔ (old.getD []).length ≤ kManifestReserved ∧
      StartsEmpty (old.getD []) db.lastSequence := by
  constructor
  · intro h
    have hread := fun u => (recovers_content hs (h u)).2
    simp only [hnil, manifestBytes_nil, List.nil_append, List.length_nil, List.drop_zero] at hread
    obtain ⟨db', hdb', hmetas, -⟩ := hread ⟨0, false, 0⟩
    obtain ⟨hlen, count, slice, read, hcount, hmetas', rfl⟩ := readManifest_cases hdb'
    have hread' : read = [] := hmetas
    obtain rfl : count = 0 := by
      cases count with
      | zero => rfl
      | succ n =>
        obtain ⟨_, -, hmetas'⟩ := Exec.bind_eq_ok.1 hmetas'
        obtain ⟨_, -, hmetas'⟩ := Exec.bind_eq_ok.1 hmetas'
        rw [hread'] at hmetas'
        cases hmetas'
    refine ⟨hlen, slice, ?_⟩
    -- a last sequence number that is not there would be what the variable happens to hold
    obtain ⟨db', hdb', -, hlast⟩ := hread ⟨0, false, db.lastSequence + 1⟩
    obtain ⟨-, count, slice', read, hcount', -, rfl⟩ := readManifest_cases hdb'
    cases hcount.symm.trans hcount'
    cases hget : getVarint64 slice with
    | none =>
      simp [FileMeta.getVarint64Or, hget] at hlast
    | some r =>
      obtain ⟨v, rest⟩ := r
      obtain rfl : v = db.lastSequence := by simpa [FileMeta.getVarint64Or, hget] using hlast
      exact ⟨rest, hcount, rfl⟩
  · rintro ⟨hlen, slice, rest, hcount, hlast⟩ u
    have hread : { fresh u with lastSequence := u.number, sstableNumber := u.number }.readManifest
        u.number (manifestBytes [] db.lastSequence ++
          (old.getD []).drop (manifestBytes [] db.lastSequence).length) =
        .ok { fresh u with lastSequence := db.lastSequence, sstableNumber := 0 } := by
      simp only [manifestBytes_nil, List.nil_append, List.length_nil, List.drop_zero,
        readManifest, if_neg (not_lt.2 hlen), hcount, FileMeta.getVarint64Or, hlast,
        Option.getD_some, readMetas, Exec.pure_eq, Exec.ok_bind]
      rfl
    rw [← hnil] at hread
    exact recovers_of_read hs (by simp [hnil]) hread ⟨hnil.symm, rfl⟩

/-- **When the manifest is recovered.**  With all file operations succeeding, a new database has the
list of tables and the last sequence number of the one that dumped its manifest, whatever its
memory held before, if and only if

* every key in the list has the eight bytes behind the user key,
* neither the manifest nor the one that was there before is longer than the buffer of the reader,
* there is a table and the last sequence number is not zero; or there is none, and the manifest
  that was there before already started with no tables and the same last sequence number. -/
theorem recovers_iff (hs : env.Succeeds) (hfits : ∀ m ∈ db.fileMetas, m.Fits)
    (hlt : db.lastSequence < 2 ^ 64) (old : Option Bytes) :
    (∀ u, Recovers env old u db) ↔
      (∀ m ∈ db.fileMetas, 8 ≤ m.smallestKey.length ∧ 8 ≤ m.largestKey.length) ∧
      (manifestBytes db.fileMetas db.lastSequence).length ≤ kManifestReserved ∧
      (old.getD []).length ≤ kManifestReserved ∧
      (db.fileMetas ≠ [] ∧ 0 < db.lastSequence ∨
        db.fileMetas = [] ∧ StartsEmpty (old.getD []) db.lastSequence) := by
  by_cases hnil : db.fileMetas = []
  · rw [recovers_nil_iff hs old hnil]
    simp [hnil, manifestBytes_nil]
  have hlen : (manifestBytes db.fileMetas db.lastSequence ++
      (old.getD []).drop (manifestBytes db.fileMetas db.lastSequence).length).length ≤
        kManifestReserved ↔
      (manifestBytes db.fileMetas db.lastSequence).length ≤ kManifestReserved ∧
        (old.getD []).length ≤ kManifestReserved := by
    rw [List.length_append, List.length_drop]
    omega
  constructor
  · intro h
    obtain ⟨hkeys, db', hread, hrec⟩ := recovers_content hs (h ⟨0, false, 0⟩)
    obtain ⟨hle, -⟩ := readManifest_cases hread
    refine ⟨hkeys, (hlen.1 hle).1, (hlen.1 hle).2, .inl ⟨hnil, Nat.pos_of_ne_zero ?_⟩⟩
    intro h0
    rw [h0] at hread hrec
    exact readManifest_zero hfits (fun m hm => (Nat.zero_lt_succ 7).trans_le (hkeys m hm).1) hnil
      hread hrec
  · rintro ⟨hkeys, h1, h2, ⟨-, hseq⟩ | ⟨h0, -⟩⟩ u
    · exact recovers_of_read hs hkeys
        (readManifest_manifestBytes hfits hnil hseq hlt (hlen.2 ⟨h1, h2⟩)) ⟨rfl, rfl⟩
    · exact absurd h0 hnil

end Recovery

/-- A database with one table and the last sequence number 3. -/
def oneTable : DBimpl :=
  { fresh ⟨0, false, 0⟩ with
    fileMetas := [⟨60, 1, createInternalKey [97] 1 .kTypeValue,
      createInternalKey [98] 2 .kTypeValue⟩]
    lastSequence := 3 }

/-- It is recovered. -/
theorem recovers_iff_one_table :
    BuildEnv.accepting.Succeeds ∧ Recovers .accepting none ⟨7, true, 7⟩ oneTable := by
  have hfits : ∀ m ∈ oneTable.fileMetas, m.Fits := by
    intro m hm
    obtain rfl := List.mem_singleton.1 hm
    exact ⟨by decide, by decide, by decide, by decide⟩
  refine ⟨BuildEnv.accepting_succeeds, (recovers_iff BuildEnv.accepting_succeeds hfits (by decide)
    none).2 ⟨by decide, by decide, by decide, .inl ⟨by decide, by decide⟩⟩ _⟩

/-- A new database that is closed at once: its manifest is empty. -/
theorem recovers_fails_no_tables :
    ¬ ∀ (env : BuildEnv) (old : Option Bytes) (u : Uninit) (db : DBimpl), env.Succeeds →
      (∀ m ∈ db.fileMetas, m.Fits) → db.lastSequence < 2 ^ 64 →
      (∀ m ∈ db.fileMetas, 8 ≤ m.smallestKey.length ∧ 8 ≤ m.largestKey.length) →
        Recovers env old u db := by
  intro h
  obtain ⟨-, db', hread, -⟩ := recovers_content BuildEnv.accepting_succeeds
    (h .accepting none ⟨0, false, 0⟩ (fresh ⟨0, false, 0⟩) BuildEnv.accepting_succeeds
      (by simp [fresh]) (by simp [fresh]) (by simp [fresh]))
  have hrun : ({ fresh ⟨0, false, 0⟩ with lastSequence := 0, sstableNumber := 0 }.readManifest 0
      (manifestBytes [] 1)).map (fun _ => ()) = .error .outOfBounds := by decide +kernel
  have hread : { fresh ⟨0, false, 0⟩ with lastSequence := 0, sstableNumber := 0 }.readManifest 0
      (manifestBytes [] 1) = .ok db' := hread
  rw [hread] at hrun
  cases hrun

end DBimpl

end KoishiDB
