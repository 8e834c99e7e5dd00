import KoishiDB.Common

/-!
# Writable files

`disk/writable_file.h` and `disk/writable_file.cc`: a file descriptor with a buffer in front of
it.  The operating system is a function `os` that says what the `i`-th settled `write` call does:
it accepts some of the bytes, or it fails with an error number.  A call that is interrupted is
made again, so an interruption carries what the repeated call does; a call that accepts bytes
accepts at least one.

`calls` counts the settled calls, so "no write call failed so far" is `AllAccepted f.os 0 f.calls`.

* `append_spec`, `flush_spec` : a successful call keeps the bytes in order, and a call reports
  success if and only if none of its write calls failed.
* `buffered_writing_refines_appending` : a sequence of calls, with the descriptor and the buffer
  together, is plain appending until a call fails.
* `performAll_sublist` : whatever fails, a sequence of calls may lose bytes, and it neither repeats
  one nor changes their order.
-/

namespace KoishiDB

/-- What a `write` call of the operating system does. -/
inductive WriteResult where
  /-- At most `n + 1` bytes are written. -/
  | accept (n : ℕ)
  /-- `EINTR`, and what the repeated call does. -/
  | interrupted (again : WriteResult)
  /-- An error number, with its text. -/
  | error (errno : ℕ) (text : String)
deriving Repr, DecidableEq

/-- What is left of an interrupted call in the end. -/
def WriteResult.settled : WriteResult → WriteResult
  | interrupted again => again.settled
  | r => r

/-- The call fails. -/
def WriteResult.failed (r : WriteResult) : Bool :=
  match r.settled with
  | error _ _ => true
  | _ => false

/-- The error number `ENOENT`. -/
def ENOENT : ℕ := 2

/-- `class WritableFile`. -/
structure WritableFile where
  /-- What the write calls do. -/
  os : ℕ → WriteResult
  /-- The name of the file. -/
  filename : String
  /-- The number of write calls so far. -/
  calls : ℕ
  /-- The bytes accepted so far. -/
  fd : Bytes
  /-- The first `pos_` bytes of `buf_`. -/
  buf : Bytes
  /-- `pos_` stays inside the buffer. -/
  buf_le : buf.length ≤ kWritableFileBuffer

namespace WritableFile

/-- The constructor, for a file that is open for writing from its start on. -/
def make (os : ℕ → WriteResult) (filename : String) : WritableFile :=
  ⟨os, filename, 0, [], [], by simp⟩

/-- `WritableFile::PosixError`. -/
def posixError (context : String) (errno : ℕ) (text : String) : Status :=
  if errno = ENOENT then .make .kNotFound context text else .make .kIOError context text

/-- The loop of `WriteUnbuffered`; every round accepts a byte, so as many rounds as there are
bytes are enough. -/
def writeLoop : ℕ → WritableFile → Bytes → Status × WritableFile
  | 0, f, _ => (.OK, f)
  | _ + 1, f, [] => (.OK, f)
  | fuel + 1, f, data =>
    let f' := { f with calls := f.calls + 1 }
    match (f.os f.calls).settled with
    | .accept n =>
      writeLoop fuel { f' with fd := f.fd ++ data.take (n + 1) } (data.drop (n + 1))
    | .error errno text => (posixError f.filename errno text, f')
    | .interrupted _ => (.OK, f')

/-- `WritableFile::WriteUnbuffered`. -/
def writeUnbuffered (f : WritableFile) (data : Bytes) : Status × WritableFile :=
  writeLoop data.length f data

/-- `WritableFile::Flush`. -/
def flush (f : WritableFile) : Status × WritableFile :=
  let (status, f) := f.writeUnbuffered f.buf
  (status, { f with buf := [], buf_le := Nat.zero_le _ })

/-- The number of bytes of `content` that fit into the buffer. -/
def copySize (f : WritableFile) (content : Bytes) : ℕ :=
  min content.length (kWritableFileBuffer - f.buf.length)

/-- The first `memcpy` of `Append`. -/
def fill (f : WritableFile) (content : Bytes) : WritableFile :=
  { f with
    buf := f.buf ++ content.take (f.copySize content)
    buf_le := by
      have := f.buf_le
      rw [List.length_append, List.length_take, copySize]
      omega }

/-- `WritableFile::Append`. -/
def append (f : WritableFile) (content : Bytes) : Status × WritableFile :=
  let rest := content.drop (f.copySize content)
  if rest.length = 0 then (.OK, f.fill content)
  else
    let (status, f) := (f.fill content).flush
    if !status.ok then (status, f)
    else if h : rest.length < kWritableFileBuffer then
      (.OK, { f with buf := rest, buf_le := h.le })
    else f.writeUnbuffered rest

end WritableFile

/-! ### Settled calls -/

theorem WriteResult.settled_ne_interrupted (r again : WriteResult) :
    r.settled ≠ interrupted again := by
  induction r with
  | accept n => simp [settled]
  | interrupted r ih => exact ih
  | error errno text => simp [settled]

theorem WriteResult.failed_eq_true {r : WriteResult} :
    r.failed = true ↔ ∃ errno text, r.settled = error errno text := by
  unfold failed
  split <;> simp_all

/-- No write call from the `a`-th on and before the `b`-th fails. -/
def AllAccepted (os : ℕ → WriteResult) (a b : ℕ) : Prop := ∀ i, a ≤ i → i < b → (os i).failed = false

theorem AllAccepted.empty {os : ℕ → WriteResult} (a : ℕ) : AllAccepted os a a :=
  fun _ h h' => absurd h (not_le.2 h')

theorem AllAccepted.trans_iff {os : ℕ → WriteResult} {a b c : ℕ} (hab : a ≤ b) (hbc : b ≤ c) :
    AllAccepted os a c ↔ AllAccepted os a b ∧ AllAccepted os b c := by
  constructor
  · exact fun h => ⟨fun i h1 h2 => h i h1 (h2.trans_le hbc), fun i h1 h2 => h i (hab.trans h1) h2⟩
  · rintro ⟨h1, h2⟩ i hai hic
    rcases lt_or_ge i b with hib | hib
    · exact h1 i hai hib
    · exact h2 i hib hic

theorem AllAccepted.singleton_iff {os : ℕ → WriteResult} {a : ℕ} :
    AllAccepted os a (a + 1) ↔ (os a).failed = false :=
  ⟨fun h => h a le_rfl (Nat.lt_succ_self a), fun h i h1 h2 => by
    have : i = a := by omega
    exact this ▸ h⟩

/-! ### What the operations do -/

namespace WritableFile

/-- What a call that returns the status `st` and turns `f` into `f'` has done: it reports success
if and only if its write calls succeeded, and then the file has the content `written` in it, in
front of what is buffered. -/
structure Outcome (f : WritableFile) (st : Status) (f' : WritableFile) (written : Bytes) :
    Prop where
  os_eq : f'.os = f.os
  filename_eq : f'.filename = f.filename
  calls_le : f.calls ≤ f'.calls
  ok_iff : st = .OK ↔ AllAccepted f.os f.calls f'.calls
  content : st = .OK → f'.fd ++ f'.buf = written

theorem posixError_ne_ok (context : String) (errno : ℕ) (text : String) :
    posixError context errno text ≠ .OK := by
  unfold posixError Status.make
  split <;> simp

theorem writeLoop_spec {fuel : ℕ} {f f' : WritableFile} {data : Bytes} {st : Status}
    (hf : data.length ≤ fuel) (h : writeLoop fuel f data = (st, f')) :
    f'.os = f.os ∧ f'.filename = f.filename ∧ f.calls ≤ f'.calls ∧ f'.buf = f.buf ∧
      (st = .OK ↔ AllAccepted f.os f.calls f'.calls) ∧ (st = .OK → f'.fd = f.fd ++ data) := by
  induction fuel generalizing f data with
  | zero =>
    cases h
    simp [List.length_eq_zero_iff.1 (Nat.le_zero.1 hf), AllAccepted.empty]
  | succ fuel ih =>
    cases data with
    | nil => cases h; simp [AllAccepted.empty]
    | cons b data =>
      simp only [writeLoop] at h
      split at h
      · rename_i n hn
        have hnf : (f.os f.calls).failed = false := by simp [WriteResult.failed, hn]
        obtain ⟨h1, h2, h3, h4, h5, h6⟩ := ih (by simp at hf ⊢; omega) h
        refine ⟨h1, h2, (Nat.le_succ _).trans h3, h4, ?_, ?_⟩
        · rw [h5, AllAccepted.trans_iff (Nat.le_succ f.calls) h3, AllAccepted.singleton_iff]
          exact (and_iff_right hnf).symm
        · intro hst
          rw [h6 hst]
          simp only [List.append_assoc, List.take_append_drop]
      · rename_i errno text he
        cases h
        have hf : (f.os f.calls).failed = true := WriteResult.failed_eq_true.2 ⟨_, _, he⟩
        refine ⟨rfl, rfl, Nat.le_succ _, rfl, ?_, fun hst => absurd hst (posixError_ne_ok _ _ _)⟩
        rw [AllAccepted.singleton_iff, hf]
        simp [posixError_ne_ok]
      · rename_i again hi
        exact absurd hi (WriteResult.settled_ne_interrupted _ _)

theorem writeUnbuffered_spec {f f' : WritableFile} {data : Bytes} {st : Status}
    (h : f.writeUnbuffered data = (st, f')) :
    f'.os = f.os ∧ f'.filename = f.filename ∧ f.calls ≤ f'.calls ∧ f'.buf = f.buf ∧
      (st = .OK ↔ AllAccepted f.os f.calls f'.calls) ∧ (st = .OK → f'.fd = f.fd ++ data) :=
  writeLoop_spec le_rfl h

/-- **`Flush`** empties the buffer into the file. -/
theorem flush_spec {f f' : WritableFile} {st : Status} (h : f.flush = (st, f')) :
    f.Outcome st f' (f.fd ++ f.buf) ∧ f'.buf = [] := by
  unfold flush at h
  cases hw : f.writeUnbuffered f.buf with
  | mk st₁ f₁ =>
    obtain ⟨h1, h2, h3, -, h5, h6⟩ := writeUnbuffered_spec hw
    simp only [hw] at h
    cases h
    exact ⟨⟨h1, h2, h3, h5, fun hst => by rw [h6 hst]; exact List.append_nil _⟩, rfl⟩

/-- **`Append`** adds the content behind what the file and its buffer hold. -/
theorem append_spec {f f' : WritableFile} {content : Bytes} {st : Status}
    (h : f.append content = (st, f')) : f.Outcome st f' (f.fd ++ f.buf ++ content) := by
  have hsplit : content.take (f.copySize content) ++ content.drop (f.copySize content) = content :=
    List.take_append_drop _ _
  cases hfl : (f.fill content).flush with
  | mk st₁ f₁ =>
    obtain ⟨⟨h1, h2, h3, h4, h5⟩, h6⟩ := flush_spec hfl
    simp only [append, hfl] at h
    -- All of it fits the buffer; or the buffer is flushed, and the rest is buffered or written.
    split at h
    · rename_i hrest
      cases h
      rw [List.length_eq_zero_iff.1 hrest, List.append_nil] at hsplit
      exact ⟨rfl, rfl, le_rfl, by simp [AllAccepted.empty, fill], fun _ => by simp [fill, hsplit]⟩
    · split at h
      · rename_i hst
        cases h
        exact ⟨h1, h2, h3, h4, fun h => by rw [h] at hst; exact absurd hst (by decide)⟩
      · rename_i hst
        have hok : st₁ = .OK := Status.eq_OK_of_not hst
        have h5 := h5 hok
        rw [h6, List.append_nil] at h5
        split at h
        · cases h
          refine ⟨h1, h2, h3, ⟨fun _ => h4.1 hok, fun _ => rfl⟩, ?_⟩
          intro _
          simp only [h5, fill, List.append_assoc, hsplit]
        · obtain ⟨g1, g2, g3, g4, g5, g6⟩ := writeUnbuffered_spec h
          refine ⟨g1.trans h1, g2.trans h2, h3.trans g3, ?_, ?_⟩
          · have hall : AllAccepted f.os f.calls f₁.calls := h4.1 hok
            have hle : f.calls ≤ f₁.calls := h3
            rw [AllAccepted.trans_iff hle g3, g5, h1]
            exact (and_iff_right hall).symm
          · intro hst
            rw [g6 hst, g4, h6, h5]
            simp only [fill, List.append_assoc, hsplit, List.append_nil]

/-- A failed `Append` leaves the buffer empty: the flush in the middle sets `pos_` back whether or
not its bytes were written. -/
theorem append_buf_of_failed {f f' : WritableFile} {content : Bytes} {st : Status}
    (h : f.append content = (st, f')) (hst : st ≠ .OK) : f'.buf = [] := by
  cases hfl : (f.fill content).flush with
  | mk st₁ f₁ =>
    have hbuf : f₁.buf = [] := (flush_spec hfl).2
    simp only [append, hfl] at h
    split at h
    · cases h; exact absurd rfl hst
    · split at h
      · cases h; exact hbuf
      · split at h
        · cases h; exact absurd rfl hst
        · obtain ⟨-, -, -, hkeep, -, -⟩ := writeUnbuffered_spec h
          exact hkeep.trans hbuf

/-! ### What reaches the descriptor -/

/-- Whatever the write calls do, the descriptor receives a prefix of the data. -/
theorem writeLoop_isPrefix {fuel : ℕ} {f f' : WritableFile} {data : Bytes} {st : Status}
    (h : writeLoop fuel f data = (st, f')) : f'.fd <+: f.fd ++ data := by
  induction fuel generalizing f data with
  | zero => cases h; exact List.prefix_append _ _
  | succ fuel ih =>
    cases data with
    | nil => cases h; simp
    | cons b data =>
      simp only [writeLoop] at h
      split at h
      · rename_i n hn
        have := ih h
        rwa [List.append_assoc, List.take_append_drop] at this
      all_goals
        cases h
        exact List.prefix_append _ _

theorem flush_isPrefix {f f' : WritableFile} {st : Status} (h : f.flush = (st, f')) :
    f'.fd <+: f.fd ++ f.buf := by
  unfold flush at h
  cases hw : f.writeUnbuffered f.buf with
  | mk st₁ f₁ =>
    simp only [hw] at h
    cases h
    have := writeLoop_isPrefix hw
    exact this

/-- The descriptor receives a prefix of what the file, its buffer and the content hold. -/
theorem append_isPrefix {f f' : WritableFile} {content : Bytes} {st : Status}
    (h : f.append content = (st, f')) : f'.fd <+: f.fd ++ f.buf ++ content := by
  have hsplit : f.fd ++ (f.fill content).buf ++ content.drop (f.copySize content) =
      f.fd ++ f.buf ++ content := by
    simp only [fill, List.append_assoc, List.take_append_drop]
  cases hfl : (f.fill content).flush with
  | mk st₁ f₁ =>
    -- the flush in the middle writes a prefix of the file and the filled buffer
    have hpre : f₁.fd <+: f.fd ++ f.buf ++ content :=
      (flush_isPrefix hfl).trans (hsplit ▸ List.prefix_append _ _)
    simp only [append, hfl] at h
    split at h
    · cases h
      rw [List.append_assoc]
      exact List.prefix_append _ _
    · split at h
      · cases h; exact hpre
      · rename_i hst
        have hok : st₁ = .OK := Status.eq_OK_of_not hst
        obtain ⟨ho, hbuf⟩ := flush_spec hfl
        have hfd := ho.content hok
        rw [hbuf, List.append_nil] at hfd
        split at h
        · cases h; exact hpre
        · have hrest := writeLoop_isPrefix h
          rw [hfd] at hrest
          exact hsplit ▸ hrest

end WritableFile

/-! ### Sequences of calls -/

/-- A call of the interface of `WritableFile`. -/
inductive FileCall where
  /-- `Append(content)`. -/
  | append (content : Bytes)
  /-- `Flush()`. -/
  | flush
deriving Repr, DecidableEq

namespace FileCall

/-- The bytes a call appends. -/
def content : FileCall → Bytes
  | append content => content
  | flush => []

/-- The concatenation of everything a sequence of calls appends. -/
def contents (calls : List FileCall) : Bytes := calls.flatMap content

@[simp] theorem contents_append (calls calls' : List FileCall) :
    contents (calls ++ calls') = contents calls ++ contents calls' := List.flatMap_append

@[simp] theorem contents_singleton (call : FileCall) : contents [call] = call.content := by
  simp [contents]

end FileCall

namespace WritableFile

/-- Perform a call. -/
def perform (f : WritableFile) : FileCall → Status × WritableFile
  | .append content => f.append content
  | .flush => f.flush

/-- Perform calls one after the other: what they return, in order, and the file afterwards. -/
def performAll (f : WritableFile) : List FileCall → List Status × WritableFile
  | [] => ([], f)
  | call :: calls =>
    let (status, f) := f.perform call
    let (statuses, f) := f.performAll calls
    (status :: statuses, f)

theorem performAll_concat (f : WritableFile) (calls : List FileCall) (call : FileCall) :
    f.performAll (calls ++ [call]) =
      ((f.performAll calls).1 ++ [((f.performAll calls).2.perform call).1],
        ((f.performAll calls).2.perform call).2) := by
  induction calls generalizing f with
  | nil => rfl
  | cons c calls ih => simp only [List.cons_append, performAll, ih]

/-- What one call does: on success the bytes stay in order, a `Flush` leaves the buffer empty, and
in any case the descriptor has a prefix of them. -/
theorem perform_spec {f f' : WritableFile} {call : FileCall} {st : Status}
    (h : f.perform call = (st, f')) :
    (st = .OK → f'.fd ++ f'.buf = f.fd ++ f.buf ++ call.content) ∧
      (call = .flush → f'.buf = []) ∧ f'.fd <+: f.fd ++ f.buf ++ call.content := by
  cases call with
  | append content =>
    refine ⟨(append_spec h).content, ?_, append_isPrefix h⟩
    intro hc
    cases hc
  | flush =>
    obtain ⟨ho, hbuf⟩ := flush_spec h
    simp only [FileCall.content, List.append_nil]
    exact ⟨ho.content, fun _ => hbuf, flush_isPrefix h⟩

/-- A call that fails drops what was buffered. -/
theorem perform_buf_of_failed {f f' : WritableFile} {call : FileCall} {st : Status}
    (h : f.perform call = (st, f')) (hst : st ≠ .OK) : f'.buf = [] := by
  cases call with
  | append content => exact append_buf_of_failed h hst
  | flush => exact (flush_spec h).2

/-- One call, whether it fails or not: bytes may be lost, the others keep their order. -/
theorem perform_sublist {f f' : WritableFile} {call : FileCall} {st : Status}
    (h : f.perform call = (st, f')) :
    (f'.fd ++ f'.buf).Sublist (f.fd ++ f.buf ++ call.content) := by
  obtain ⟨hok, -, hpre⟩ := perform_spec h
  by_cases hst : st = .OK
  · rw [hok hst]
  · rw [perform_buf_of_failed h hst, List.append_nil]
    exact hpre.sublist

/-- Sequences that go on after a failing call: the descriptor and the buffer hold a subsequence of
what was appended.  It need not be a prefix, since the next calls write behind the gap. -/
theorem performAll_sublist (f : WritableFile) (calls : List FileCall) :
    ((f.performAll calls).2.fd ++ (f.performAll calls).2.buf).Sublist
      (f.fd ++ f.buf ++ FileCall.contents calls) := by
  induction calls generalizing f with
  | nil => simp [performAll, FileCall.contents]
  | cons call calls ih =>
    have hcall := perform_sublist (Prod.eta (f.perform call)).symm
    have hrest := ih (f.perform call).2
    simp only [performAll, FileCall.contents, List.flatMap_cons] at hrest ⊢
    rw [← List.append_assoc]
    exact hrest.trans (hcall.append_right _)

/-- As long as every call succeeds, no byte is lost, repeated or out of its place. -/
theorem performAll_content (f : WritableFile) (calls : List FileCall)
    (hok : ∀ st ∈ (f.performAll calls).1, st = .OK) :
    (f.performAll calls).2.fd ++ (f.performAll calls).2.buf =
      f.fd ++ f.buf ++ FileCall.contents calls := by
  induction calls generalizing f with
  | nil => simp [performAll, FileCall.contents]
  | cons call calls ih =>
    have hcall := (perform_spec (Prod.eta (f.perform call)).symm).1 (hok _ List.mem_cons_self)
    have hrest := ih (f.perform call).2 fun st hst => hok st (List.mem_cons_of_mem _ hst)
    rw [hcall] at hrest
    simp only [performAll, FileCall.contents, List.flatMap_cons] at hrest ⊢
    rw [hrest, List.append_assoc]

/-- **Buffered writing refines appending**, for every sequence of calls and every behaviour of the
operating system: the position stays inside the buffer; while every call has succeeded, the
descriptor and the buffer hold what was appended, and a `Flush` empties the buffer; right after the
first call that fails the descriptor holds a prefix of what was appended. -/
theorem buffered_writing_refines_appending (os : ℕ → WriteResult) (filename : String)
    (calls : List FileCall) :
    ((make os filename).performAll calls).2.buf.length ≤ kWritableFileBuffer ∧
    ((∀ st ∈ ((make os filename).performAll calls).1, st = .OK) →
      ((make os filename).performAll calls).2.fd ++ ((make os filename).performAll calls).2.buf =
          FileCall.contents calls ∧
        (calls.getLast? = some .flush → ((make os filename).performAll calls).2.buf = [])) ∧
    ∀ before call, calls = before ++ [call] →
      (∀ st ∈ ((make os filename).performAll before).1, st = .OK) →
      (((make os filename).performAll before).2.perform call).1 ≠ .OK →
        ((make os filename).performAll calls).2.fd <+: FileCall.contents calls := by
  refine ⟨WritableFile.buf_le _, fun hok => ⟨performAll_content _ calls hok, ?_⟩, ?_⟩
  · intro hlast
    obtain ⟨before, rfl⟩ := List.getLast?_eq_some_iff.1 hlast
    rw [performAll_concat]
    exact (perform_spec (Prod.eta _).symm).2.1 rfl
  · rintro before call rfl hok -
    have hpre := (perform_spec (Prod.eta
      (((make os filename).performAll before).2.perform call)).symm).2.2
    rw [performAll_content _ before hok] at hpre
    rw [performAll_concat, FileCall.contents_append, FileCall.contents_singleton]
    exact hpre

/-- The buffered `a` is dropped with the `Flush` that fails, and the next `Flush`, which succeeds,
writes `b` alone: no prefix of `ab`. -/
theorem descriptor_skips_failed_flush :
    let os : ℕ → WriteResult := fun i => if i = 0 then .error 5 "Input/output error" else .accept 99
    let calls : List FileCall := [.append [97], .flush, .append [98], .flush]
    ((make os "000001.koi").performAll calls).1 =
        [.OK, posixError "000001.koi" 5 "Input/output error", .OK, .OK] ∧
      ((make os "000001.koi").performAll calls).2.fd = [98] ∧
      ¬ ((make os "000001.koi").performAll calls).2.fd <+: FileCall.contents calls := by
  decide

/-! ### Files that accept everything -/

variable {f : WritableFile}

theorem append_of_accepting (hos : ∀ i, (f.os i).failed = false) (content : Bytes) :
    ∃ f', f.append content = (.OK, f') ∧ f'.os = f.os ∧
      f'.fd ++ f'.buf = f.fd ++ f.buf ++ content := by
  cases ha : f.append content with
  | mk st f' =>
    have ho := append_spec ha
    have hst : st = .OK := ho.ok_iff.2 fun i _ _ => hos i
    exact ⟨f', by rw [hst], ho.os_eq, ho.content hst⟩

theorem flush_of_accepting (hos : ∀ i, (f.os i).failed = false) :
    ∃ f', f.flush = (.OK, f') ∧ f'.os = f.os ∧ f'.fd = f.fd ++ f.buf ∧ f'.buf = [] := by
  cases ha : f.flush with
  | mk st f' =>
    obtain ⟨ho, hbuf⟩ := flush_spec ha
    have hst : st = .OK := ho.ok_iff.2 fun i _ _ => hos i
    have hc := ho.content hst
    rw [hbuf, List.append_nil] at hc
    exact ⟨f', by rw [hst], ho.os_eq, hc, hbuf⟩

/-- `Append` and `Flush` of a file with an empty buffer. -/
theorem append_flush_of_accepting (hos : ∀ i, (f.os i).failed = false) (hbuf : f.buf = [])
    (content : Bytes) :
    (f.append content).2.flush.2.os = f.os ∧ (f.append content).2.flush.2.buf = [] ∧
      (f.append content).2.flush.2.fd = f.fd ++ content := by
  obtain ⟨f₁, h₁, hos₁, hc₁⟩ := append_of_accepting hos content
  obtain ⟨f₂, h₂, hos₂, hfd₂, hbuf₂⟩ := flush_of_accepting (f := f₁) (by rw [hos₁]; exact hos)
  rw [h₁, h₂]
  refine ⟨hos₂.trans hos₁, hbuf₂, ?_⟩
  rw [hfd₂, hc₁, hbuf, List.append_nil]

end WritableFile

end KoishiDB
