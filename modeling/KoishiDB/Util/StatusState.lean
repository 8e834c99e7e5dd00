import KoishiDB.Base.Heap
import KoishiDB.Base.Population
import KoishiDB.Base.Simulation
import KoishiDB.Type.InternalKey

/-!
# The memory behind a status

`common/status.h`, `common/status.cc`.  An OK status is a null pointer; any other one owns a block
that holds the length of the message, the code and the message.  Blocks are allocated by the
private constructor and by copying, handed on by moving, exchanged by move assignment, and freed by
the destructor and by copy assignment, which compares the two pointers first so that assigning a
status to itself does not free what it is about to copy.

The machine `Statuses` are objects over a heap, and a program is a list of operations on them.
`Values` is what the program means: objects that hold a code and a message, and copying that is
copying.  A program that means something (it uses no object before its construction or after its
destruction, and its messages fit) runs without a fault (`statuses_own_their_memory`), and what the
objects say about themselves is what the values say (`statuses_are_values`).
-/

namespace KoishiDB

/-! ### Blocks of characters -/

/-- `memcpy` of `n` characters from position `i` on. -/
def load (buf : Bytes) (i n : ℕ) : Exec Bytes :=
  if i + n ≤ buf.length then .ok ((buf.drop i).take n) else .error .outOfBounds

/-- `memcpy` of `bs` to position `i`. -/
def store (buf : Bytes) (i : ℕ) (bs : Bytes) : Exec Bytes :=
  if i + bs.length ≤ buf.length then .ok (buf.take i ++ bs ++ buf.drop (i + bs.length))
  else .error .outOfBounds

theorem load_append (a b c : Bytes) {i n : ℕ} (hi : a.length = i) (hn : b.length = n) :
    load (a ++ (b ++ c)) i n = .ok b := by
  rw [load, if_pos (by simp only [List.length_append]; omega), List.drop_left' hi,
    List.take_left' hn]

/-- The first characters of a block are known, and `n` are left. -/
def Filled (buf known : Bytes) (n : ℕ) : Prop :=
  ∃ rest : Bytes, buf = known ++ rest ∧ rest.length = n

theorem Filled.start (buf : Bytes) : Filled buf [] buf.length := ⟨buf, rfl, rfl⟩

theorem Filled.eq {buf known : Bytes} (h : Filled buf known 0) : buf = known := by
  obtain ⟨rest, rfl, hrest⟩ := h
  rw [List.eq_nil_of_length_eq_zero hrest, List.append_nil]

/-- Filling the next characters of a block. -/
theorem Filled.store {buf known : Bytes} {n : ℕ} (h : Filled buf known n) (bs : Bytes) (i m : ℕ)
    (hi : known.length = i) (hn : bs.length + m = n) :
    ∃ buf', store buf i bs = .ok buf' ∧ Filled buf' (known ++ bs) m := by
  obtain ⟨rest, rfl, hrest⟩ := h
  refine ⟨known ++ bs ++ rest.drop bs.length, ?_, rest.drop bs.length, rfl, ?_⟩
  · rw [KoishiDB.store, if_pos (by simp only [List.length_append]; omega), List.take_left' hi, ← hi,
      ← List.drop_drop, List.drop_left' rfl]
  · rw [List.length_drop]
    omega

/-- The characters of a text. -/
def ascii (s : String) : Bytes := s.toList.map fun c => UInt8.ofNat c.toNat

/-! ### The layout of a state -/

namespace Code

/-- The number of a code in the enumeration, where 0 is `kOk`. -/
def toByte : Code → UInt8
  | kNotFound => 1
  | kCorruption => 2
  | kNotSupported => 3
  | kInvalidArgument => 4
  | kIOError => 5

/-- The text in front of the message. -/
def type : Code → Bytes
  | kNotFound => ascii "NotFound: "
  | kCorruption => ascii "Corruption: "
  | kNotSupported => ascii "Not implemented: "
  | kInvalidArgument => ascii "Invalid argument: "
  | kIOError => ascii "IO error: "

theorem toByte_injective {c c' : Code} (h : c.toByte = c'.toByte) : c = c' := by
  cases c <;> cases c' <;> first | rfl | exact absurd h (by decide)

end Code

namespace Status

/-- The private constructor `Status::Status(Code, const Slice&, const Slice&)`: the block that
`state_` points to.  `fill` is what the new block held before. -/
def newState (code : Code) (msg msg2 : Bytes) (fill : ℕ → UInt8) : Exec Bytes := do
  let len1 := u32 msg.length
  let len2 := u32 msg2.length
  let size := u32 (len1 + if len2 ≠ 0 then 2 + len2 else 0)
  let result := (List.range (u32 (size + 5))).map fill
  let result ← store result 0 (encodeFixed32 size)
  let result ← store result 4 [code.toByte]
  let result ← store result 5 (msg.take len1)
  if len2 ≠ 0 then
    let result ← store result (u32 (5 + len1)) (ascii ":")
    let result ← store result (u32 (6 + len1)) (ascii " ")
    store result (7 + len1) (msg2.take len2)
  else return result

/-- The length of the message, read with `memcpy`. -/
def sizeOf (state : Bytes) : Exec ℕ := do
  let size ← load state 0 4
  return decodeFixed32 size

/-- `Status::CopyState`. -/
def copyState (state : Bytes) : Exec Bytes := do
  let size ← sizeOf state
  load state 0 (u32 (size + 5))

/-- `Status::code`, as a number. -/
def codeByte : Option Bytes → Exec UInt8
  | none => .ok 0
  | some state => byteAt state 4

/-- The text `type` of `Status::ToString`.  The character is signed. -/
def typeOf (code : UInt8) : Bytes :=
  if code = 0 then ascii "OK"
  else if code = 1 then ascii "NotFound: "
  else if code = 2 then ascii "Corruption: "
  else if code = 3 then ascii "Not implemented: "
  else if code = 4 then ascii "Invalid argument: "
  else if code = 5 then ascii "IO error: "
  else if code.toNat < 128 then ascii "Unknown code(" ++ toStringBytes code.toNat ++ ascii "): "
  else ascii "Unknown code(-" ++ toStringBytes (256 - code.toNat) ++ ascii "): "

/-- `Status::ToString`. -/
def stateToString : Option Bytes → Exec Bytes
  | none => .ok (ascii "OK")
  | some state => do
    let code ← byteAt state 4
    let length ← sizeOf state
    let text ← load state 5 length
    return typeOf code ++ text

/-- The message of a status with two parts. -/
def joined (msg msg2 : Bytes) : Bytes := if msg2 = [] then msg else msg ++ ascii ": " ++ msg2

/-- The sizes are computed without a wrap. -/
def Fits (msg msg2 : Bytes) : Prop := (joined msg msg2).length + 5 < 2 ^ 32

instance (msg msg2 : Bytes) : Decidable (Fits msg msg2) := inferInstanceAs (Decidable (_ < _))

/-- The block of a status with this code and message. -/
def stateOf (code : Code) (msg : Bytes) : Bytes :=
  encodeFixed32 msg.length ++ ([code.toByte] ++ msg)

theorem length_stateOf (code : Code) (msg : Bytes) :
    (stateOf code msg).length = msg.length + 5 := by
  simp only [stateOf, List.length_append, length_encodeFixed32, List.length_singleton]
  omega

theorem stateOf_injective {code code' : Code} {msg msg' : Bytes}
    (h : stateOf code msg = stateOf code' msg') : code = code' ∧ msg = msg' := by
  obtain ⟨-, htail⟩ := List.append_inj h (by simp)
  obtain ⟨hcode, hmsg⟩ := List.cons.inj htail
  exact ⟨Code.toByte_injective hcode, hmsg⟩

theorem length_joined (msg msg2 : Bytes) :
    (joined msg msg2).length = msg.length + if msg2 = [] then 0 else 2 + msg2.length := by
  unfold joined
  split
  · rfl
  · simp [ascii]
    omega

/-- **The constructor** fills the whole block. -/
theorem newState_eq {code : Code} {msg msg2 : Bytes} {fill : ℕ → UInt8} (h : Fits msg msg2) :
    newState code msg msg2 fill = .ok (stateOf code (joined msg msg2)) := by
  have hL := length_joined msg msg2
  have hfits : (joined msg msg2).length + 5 < 2 ^ 32 := h
  have h1 : u32 msg.length = msg.length := u32_of_lt (by omega)
  have h2 : u32 msg2.length = msg2.length := by
    cases msg2 with
    | nil => rfl
    | cons b msg2 =>
      rw [if_neg (List.cons_ne_nil _ _)] at hL
      exact u32_of_lt (by omega)
  have hsize : u32 (msg.length + if msg2.length ≠ 0 then 2 + msg2.length else 0) =
      (joined msg msg2).length := by
    have hif : (if msg2.length ≠ 0 then 2 + msg2.length else 0) =
        if msg2 = [] then 0 else 2 + msg2.length := by
      cases msg2 <;> rfl
    rw [hif, ← hL]
    exact u32_of_lt (by omega)
  have hbuf := Filled.start ((List.range ((joined msg msg2).length + 5)).map fill)
  rw [List.length_map, List.length_range] at hbuf
  -- the length, the code and the first part
  obtain ⟨b₁, hb₁, hbuf⟩ := hbuf.store (encodeFixed32 (joined msg msg2).length) 0
    ((joined msg msg2).length + 1) rfl (by rw [length_encodeFixed32]; omega)
  obtain ⟨b₂, hb₂, hbuf⟩ := hbuf.store [code.toByte] 4 (joined msg msg2).length (by simp)
    (by simp [Nat.add_comm])
  obtain ⟨b₃, hb₃, hbuf⟩ := hbuf.store msg 5 ((joined msg msg2).length - msg.length) (by simp)
    (by omega)
  simp only [newState, h1, h2, hsize, u32_of_lt hfits, List.take_length, hb₁, hb₂, hb₃,
    Exec.ok_bind]
  by_cases hmsg2 : msg2 = []
  · rw [if_pos hmsg2] at hL
    rw [hL, Nat.add_zero, Nat.sub_self] at hbuf
    rw [if_neg (by simp [hmsg2]), Exec.pure_eq, hbuf.eq, joined, if_pos hmsg2, stateOf]
    simp
  · rw [if_neg hmsg2] at hL
    have hne : msg2.length ≠ 0 := by simpa using hmsg2
    -- the colon, the blank and the second part
    obtain ⟨b₄, hb₄, hbuf⟩ := hbuf.store (ascii ":") (5 + msg.length) (1 + msg2.length)
      (by simp; omega) (by simp [ascii]; omega)
    obtain ⟨b₅, hb₅, hbuf⟩ := hbuf.store (ascii " ") (6 + msg.length) msg2.length
      (by simp [ascii]; omega) (by simp [ascii])
    obtain ⟨b₆, hb₆, hbuf⟩ := hbuf.store msg2 (7 + msg.length) 0 (by simp [ascii]; omega)
      (by omega)
    rw [if_pos hne, u32_of_lt (by omega), u32_of_lt (by omega), hb₄, Exec.ok_bind, hb₅,
      Exec.ok_bind, hb₆, hbuf.eq, joined, if_neg hmsg2, stateOf]
    simp [ascii]

theorem sizeOf_stateOf {code : Code} {msg : Bytes} (h : msg.length + 5 < 2 ^ 32) :
    sizeOf (stateOf code msg) = .ok msg.length := by
  have hload : load (stateOf code msg) 0 4 = .ok (encodeFixed32 msg.length) :=
    load_append [] _ _ rfl (length_encodeFixed32 _)
  have hsize := decodeFixed32_encode (v := msg.length) (by omega) []
  rw [List.append_nil] at hsize
  rw [sizeOf, hload, Exec.ok_bind, hsize, Exec.pure_eq]

/-- **Copying** gives a block with the same contents. -/
theorem copyState_stateOf {code : Code} {msg : Bytes} (h : msg.length + 5 < 2 ^ 32) :
    copyState (stateOf code msg) = .ok (stateOf code msg) := by
  have hlen := length_stateOf code msg
  rw [copyState, sizeOf_stateOf h, Exec.ok_bind, u32_of_lt h, load, if_pos (by omega),
    List.drop_zero, List.take_of_length_le (by omega)]

theorem codeByte_stateOf (code : Code) (msg : Bytes) :
    codeByte (some (stateOf code msg)) = .ok code.toByte := by
  have hdrop : (stateOf code msg).drop 4 = code.toByte :: msg :=
    List.drop_left' (length_encodeFixed32 _)
  exact byteAt_of_drop hdrop

theorem typeOf_toByte (code : Code) : typeOf code.toByte = code.type := by
  cases code <;> rfl

theorem stateToString_stateOf {code : Code} {msg : Bytes} (h : msg.length + 5 < 2 ^ 32) :
    stateToString (some (stateOf code msg)) = .ok (code.type ++ msg) := by
  have hcode : byteAt (stateOf code msg) 4 = .ok code.toByte := codeByte_stateOf code msg
  have htext : load (stateOf code msg) 5 msg.length = .ok msg := by
    have := load_append (encodeFixed32 msg.length ++ [code.toByte]) msg [] (i := 5) (by simp) rfl
    simpa [stateOf] using this
  rw [stateToString, hcode, Exec.ok_bind, sizeOf_stateOf h, Exec.ok_bind, htext, Exec.ok_bind,
    typeOf_toByte, Exec.pure_eq]

end Status

/-! ### Objects over a heap -/

/-- The objects of a program, in the order of their construction: `none` once destroyed, else the
pointer `state_`. -/
structure Statuses where
  heap : Heap Bytes
  objects : List (Option (Option ℕ))
deriving Repr, DecidableEq

/-- The operations on status objects. -/
inductive StatusOp where
  /-- `Status()`. -/
  | construct
  /-- `Status(code, msg, msg2)`, in a block that held `fill`. -/
  | make (code : Code) (msg msg2 : Bytes) (fill : ℕ → UInt8)
  /-- `Status(const Status &rhs)`. -/
  | copy (rhs : ℕ)
  /-- `Status(Status &&rhs)`. -/
  | move (rhs : ℕ)
  /-- `operator=(const Status &rhs)`. -/
  | assign (lhs rhs : ℕ)
  /-- `operator=(Status &&rhs)`. -/
  | moveAssign (lhs rhs : ℕ)
  /-- `~Status()`. -/
  | destroy (object : ℕ)

namespace Statuses

/-- No object has been constructed. -/
def empty : Statuses := ⟨.empty, []⟩

/-- The pointer `state_` of an object that is alive. -/
def state (s : Statuses) (i : ℕ) : Exec (Option ℕ) :=
  match s.objects[i]? with
  | some (some p) => .ok p
  | _ => .error .nullptr

/-- `delete[] state_`. -/
def deleteState (h : Heap Bytes) : Option ℕ → Exec (Heap Bytes)
  | none => .ok h
  | some p => h.free p

/-- `(rhs.state_ == nullptr) ? nullptr : CopyState(rhs.state_)`. -/
def copyOf (h : Heap Bytes) : Option ℕ → Exec (Heap Bytes × Option ℕ)
  | none => .ok (h, none)
  | some p => do
    let block ← Status.copyState (← h.read p)
    let (h, q) := h.alloc block
    return (h, some q)

/-- One operation. -/
def step (s : Statuses) : StatusOp → Exec Statuses
  | .construct => .ok { s with objects := s.objects ++ [some none] }
  | .make code msg msg2 fill => do
    let block ← Status.newState code msg msg2 fill
    let (h, p) := s.heap.alloc block
    return ⟨h, s.objects ++ [some (some p)]⟩
  | .copy rhs => do
    let (h, p) ← copyOf s.heap (← s.state rhs)
    return ⟨h, s.objects ++ [some p]⟩
  | .move rhs => do
    let p ← s.state rhs
    return { s with objects := s.objects.set rhs (some none) ++ [some p] }
  | .assign lhs rhs => do
    let p ← s.state lhs
    let q ← s.state rhs
    if p ≠ q then
      let h ← deleteState s.heap p
      let (h, q) ← copyOf h q
      return ⟨h, s.objects.set lhs (some q)⟩
    else return s
  | .moveAssign lhs rhs => do
    let p ← s.state lhs
    let q ← s.state rhs
    return { s with objects := (s.objects.set lhs (some q)).set rhs (some p) }
  | .destroy object => do
    let h ← deleteState s.heap (← s.state object)
    return ⟨h, s.objects.set object none⟩

/-- What `state_` points to. -/
def block (s : Statuses) (i : ℕ) : Exec (Option Bytes) := do
  match ← s.state i with
  | none => return none
  | some p =>
    let b ← s.heap.read p
    return some b

/-- `Status::ok` of an object. -/
def ok (s : Statuses) (i : ℕ) : Exec Bool := do
  let p ← s.state i
  return p = none

/-- `Status::code` of an object. -/
def code (s : Statuses) (i : ℕ) : Exec UInt8 := do
  let b ← s.block i
  Status.codeByte b

/-- `Status::ToString` of an object. -/
def toString (s : Statuses) (i : ℕ) : Exec Bytes := do
  let b ← s.block i
  Status.stateToString b

/-- The blocks that the objects point to. -/
def owners (objects : List (Option (Option ℕ))) : List ℕ := objects.filterMap Option.join

end Statuses

/-! ### What the operations mean -/

/-- The value of a status: OK, or a code and a message. -/
inductive StatusValue where
  | OK
  | error (code : Code) (msg : Bytes)
deriving Repr, DecidableEq

namespace StatusValue

/-- The number of the code. -/
def code : StatusValue → UInt8
  | OK => 0
  | error code _ => code.toByte

/-- The printed form. -/
def toString : StatusValue → Bytes
  | OK => ascii "OK"
  | error code msg => code.type ++ msg

end StatusValue

/-- The value of a status of `KoishiDB.Common`. -/
def Status.value : Status → StatusValue
  | OK => .OK
  | error code msg => .error code (ascii msg)

/-- The private constructor joins the messages as `Status.make` does. -/
theorem Status.value_make (code : Code) (msg msg2 : String) :
    (make code msg msg2).value = .error code (joined (ascii msg) (ascii msg2)) := by
  by_cases h : msg2 = ""
  · simp [make, value, joined, h, ascii]
  · have hne : ascii msg2 ≠ [] := by simpa [ascii] using h
    rw [make, if_neg h, value, joined, if_neg hne]
    simp [ascii]

/-- The values of the objects; `none` once destroyed. -/
abbrev Values := List (Option StatusValue)

namespace Values

/-- The value of an object that is alive. -/
def value (env : Values) (i : ℕ) : Exec StatusValue :=
  match env[i]? with
  | some (some v) => .ok v
  | _ => .error .nullptr

theorem value_eq_ok {env : Values} {i : ℕ} {v : StatusValue} :
    env.value i = .ok v ↔ env[i]? = some (some v) := by
  unfold value
  split <;> simp_all

theorem set_value {env : Values} {i : ℕ} {v : StatusValue} (h : env.value i = .ok v) :
    env.set i (some v) = env := by
  obtain ⟨hi, he⟩ := List.getElem?_eq_some_iff.1 (value_eq_ok.1 h)
  rw [← he, List.set_getElem_self]

/-- What an operation does to the values.  It means nothing if it is applied to an object that is
not alive, or if the sizes of a message would wrap. -/
def step (env : Values) : StatusOp → Exec Values
  | .construct => .ok (env ++ [some .OK])
  | .make code msg msg2 _ =>
    if Status.Fits msg msg2 then .ok (env ++ [some (.error code (Status.joined msg msg2))])
    else .error .outOfBounds
  | .copy rhs => do
    let v ← env.value rhs
    return env ++ [some v]
  | .move rhs => do
    let v ← env.value rhs
    return env.set rhs (some .OK) ++ [some v]
  | .assign lhs rhs => do
    let _ ← env.value lhs
    let v ← env.value rhs
    return env.set lhs (some v)
  | .moveAssign lhs rhs => do
    let v ← env.value lhs
    let w ← env.value rhs
    return (env.set lhs (some w)).set rhs (some v)
  | .destroy object => do
    let _ ← env.value object
    return env.set object none

end Values

/-! ### The objects show their values -/

/-- An object shows a value: both are gone, or the pointer is null for OK, or it leads to a block
with the code and the message. -/
inductive Shows (h : Heap Bytes) : Option (Option ℕ) → Option StatusValue → Prop where
  | destroyed : Shows h none none
  | null : Shows h (some none) (some .OK)
  | state {p : ℕ} {code : Code} {msg : Bytes} (hread : h.read p = .ok (Status.stateOf code msg))
      (hfits : msg.length + 5 < 2 ^ 32) : Shows h (some (some p)) (some (.error code msg))

/-- **The invariant**: the blocks belong to the objects, and the objects show the values. -/
structure Represents (s : Statuses) (env : Values) : Prop where
  owned : s.heap.Owned (Statuses.owners s.objects)
  shows : List.Forall₂ (Shows s.heap) s.objects env

section Represents

variable {h h' : Heap Bytes} {objects : List (Option (Option ℕ))} {env : Values} {s : Statuses}
  {i : ℕ} {p : Option ℕ} {v : StatusValue} {ps : List ℕ}

open Statuses

theorem Shows.frame {o : Option (Option ℕ)} {w : Option StatusValue} (hs : Shows h o w)
    (hframe : ∀ p, o.join = some p → h'.read p = h.read p) : Shows h' o w := by
  cases hs with
  | destroyed => exact .destroyed
  | null => exact .null
  | state hread hfits => exact .state ((hframe _ rfl).trans hread) hfits

/-- Objects whose blocks are as they were show what they showed. -/
theorem shows_frame (hs : List.Forall₂ (Shows h) objects env)
    (hframe : ∀ p ∈ owners objects, h'.read p = h.read p) :
    List.Forall₂ (Shows h') objects env := by
  induction hs with
  | nil => exact .nil
  | @cons o w objects env ho _ ih =>
    refine .cons (ho.frame fun p hp => hframe p ?_) (ih fun p hp => hframe p ?_)
    · exact List.mem_filterMap.2 ⟨o, List.mem_cons_self, hp⟩
    · obtain ⟨o', ho', hp⟩ := List.mem_filterMap.1 hp
      exact List.mem_filterMap.2 ⟨o', List.mem_cons_of_mem _ ho', hp⟩

/-- A value that is alive is shown by an object that is alive. -/
theorem Represents.exists_state (hr : Represents s env) (hv : env.value i = .ok v) :
    ∃ p, s.state i = .ok p ∧ s.objects[i]? = some (some p) ∧ Shows s.heap (some p) (some v) := by
  obtain ⟨o, ho, hshow⟩ := forall₂_getElem? hr.shows (Values.value_eq_ok.1 hv)
  cases hshow with
  | null => exact ⟨none, by rw [state, ho], ho, .null⟩
  | @state q code msg hread hfits => exact ⟨some q, by rw [state, ho], ho, .state hread hfits⟩

/-- `delete[] state_` takes the owner off. -/
theorem deleteState_owned (ho : h.Owned (ps ++ p.toList)) : ∃ h', deleteState h p = .ok h' ∧
    h'.Owned ps ∧ ∀ q ∈ ps, h'.read q = h.read q := by
  cases p with
  | none => exact ⟨h, rfl, by simpa using ho, fun _ _ => rfl⟩
  | some p =>
    obtain ⟨h', hfree, ho', hframe⟩ := Heap.Owned.free ho
    refine ⟨h', hfree, ho', fun q hq => hframe q ?_⟩
    rintro rfl
    exact (List.nodup_append.1 ho.nodup).2.2 q hq q (by simp) rfl

/-- A copy is a new owner, and shows the same value. -/
theorem copyOf_owned (ho : h.Owned ps) (hs : Shows h (some p) (some v)) :
    ∃ h' q, copyOf h p = .ok (h', q) ∧ h'.Owned (ps ++ q.toList) ∧ Shows h' (some q) (some v) ∧
      ∀ r ∈ ps, h'.read r = h.read r := by
  cases hs with
  | null => exact ⟨h, none, rfl, by simpa using ho, .null, fun _ _ => rfl⟩
  | @state p code msg hread hfits =>
    refine ⟨(h.alloc (Status.stateOf code msg)).1, some (h.alloc (Status.stateOf code msg)).2, ?_,
      ho.alloc _, .state Heap.read_alloc_new hfits, ?_⟩
    · simp only [copyOf, hread, Exec.ok_bind, Status.copyState_stateOf hfits, Exec.pure_eq]
    · intro r hr
      refine Heap.read_alloc ?_
      rintro rfl
      exact Heap.not_live_new ((ho.live_iff _).2 hr)

theorem owners_append (o : Option (Option ℕ)) :
    owners (objects ++ [o]) = owners objects ++ o.join.toList := by
  rw [owners, List.filterMap_append, owners]
  cases o with
  | none => rfl
  | some p => cases p <;> rfl

/-- The owners after one object has changed. -/
theorem owners_set_perm {o : Option (Option ℕ)} (hi : objects[i]? = some o)
    (o' : Option (Option ℕ)) :
    (owners (objects.set i o') ++ o.join.toList).Perm (owners objects ++ o'.join.toList) :=
  filterMap_set_perm hi o'

/-- Replacing an object whose block is as it was, or has gone to another owner. -/
theorem Represents.set (hr : Represents s env) {o : Option (Option ℕ)} {w : Option StatusValue}
    (hframe : ∀ q ∈ owners s.objects, h'.read q = s.heap.read q) (ho : Shows h' o w)
    (hown : h'.Owned (owners (s.objects.set i o))) :
    Represents ⟨h', s.objects.set i o⟩ (env.set i w) :=
  ⟨hown, forall₂_set (shows_frame hr.shows hframe) ho⟩

/-- Freeing the block of an object, which then holds null or is gone. -/
theorem Represents.release (hr : Represents s env) (hi : s.objects[i]? = some (some p))
    {o : Option (Option ℕ)} {w : Option StatusValue} (ho : ∀ h, Shows h o w)
    (hnull : o.join = none) :
    ∃ h', deleteState s.heap p = .ok h' ∧ Represents ⟨h', s.objects.set i o⟩ (env.set i w) := by
  have hperm := owners_set_perm hi o
  rw [hnull, Option.toList_none, List.append_nil] at hperm
  obtain ⟨h', hdel, hown, hframe⟩ := deleteState_owned (p := p) (hr.owned.perm hperm.symm)
  -- what is left was not freed
  refine ⟨h', hdel, hown, shows_frame (forall₂_set hr.shows (ho _)) hframe⟩

/-- Two objects with one pointer show one value. -/
theorem Shows.value_eq {w : StatusValue} (hv : Shows h (some p) (some v))
    (hw : Shows h (some p) (some w)) : v = w := by
  cases hv with
  | null => cases hw; rfl
  | state hread hfits =>
    cases hw with
    | state hread' hfits' =>
      rw [hread] at hread'
      obtain ⟨rfl, rfl⟩ := Status.stateOf_injective (Except.ok.inj hread')
      rfl

/-- **Copy assignment.**  With different pointers the objects are different, so the block that is
copied is not the one that has been freed. -/
theorem Represents.assign (hr : Represents s env) {lhs rhs : ℕ} {w : StatusValue}
    (hv : env.value lhs = .ok v) (hw : env.value rhs = .ok w) :
    ∃ s', s.step (.assign lhs rhs) = .ok s' ∧ Represents s' (env.set lhs (some w)) := by
  obtain ⟨p, hp, hgetl, hshowl⟩ := hr.exists_state hv
  obtain ⟨q, hq, hgetr, hshowr⟩ := hr.exists_state hw
  by_cases heq : p = q
  · subst heq
    refine ⟨s, by simp only [step, hp, hq, Exec.ok_bind, ne_eq, not_true_eq_false, ↓reduceIte,
      Exec.pure_eq], ?_⟩
    rw [← hshowl.value_eq hshowr, Values.set_value hv]
    exact hr
  · have hne : lhs ≠ rhs := by
      rintro rfl
      rw [hp] at hq
      exact heq (Except.ok.inj hq)
    obtain ⟨h₁, hdel, hr₁⟩ := hr.release hgetl (o := some none) (w := some .OK) (fun _ => .null) rfl
    have hw₁ : Values.value (env.set lhs (some .OK)) rhs = .ok w := by
      rw [Values.value, List.getElem?_set_ne hne]
      exact hw
    obtain ⟨q₁, hq₁, hgetr₁, hshowr₁⟩ := hr₁.exists_state hw₁
    have hqq : q₁ = q := by
      simp only [List.getElem?_set_ne hne] at hgetr₁
      rw [hgetr] at hgetr₁
      exact (Option.some.inj (Option.some.inj hgetr₁)).symm
    subst hqq
    obtain ⟨h₂, q₂, hcopy, hown, hshow₂, hframe⟩ := copyOf_owned hr₁.owned hshowr₁
    refine ⟨⟨h₂, s.objects.set lhs (some q₂)⟩, ?_, ?_⟩
    · simp only [step, hp, hq, Exec.ok_bind, ne_eq, heq, not_false_eq_true, ↓reduceIte, hdel, hcopy,
        Exec.pure_eq]
    · have hget₁ : (s.objects.set lhs (some none))[lhs]? = some (some none) := by
        simp [(List.getElem?_eq_some_iff.1 hgetl).1]
      have hperm := owners_set_perm hget₁ (some q₂)
      rw [Option.join_some, Option.toList_none, List.append_nil] at hperm
      have hr₂ := hr₁.set (i := lhs) hframe hshow₂ (hown.perm hperm.symm)
      rwa [List.set_set, List.set_set] at hr₂

/-- A new status shows the code and the joined messages. -/
theorem Represents.make (hr : Represents s env) {code : Code} {msg msg2 : Bytes} {fill : ℕ → UInt8}
    (hfits : Status.Fits msg msg2) :
    ∃ s', s.step (.make code msg msg2 fill) = .ok s' ∧
      Represents s' (env ++ [some (.error code (Status.joined msg msg2))]) := by
  have hframe : ∀ q ∈ owners s.objects,
      (s.heap.alloc (Status.stateOf code (Status.joined msg msg2))).1.read q = s.heap.read q := by
    intro q hq
    refine Heap.read_alloc ?_
    rintro rfl
    exact Heap.not_live_new ((hr.owned.live_iff _).2 hq)
  refine ⟨_, by rw [step, Status.newState_eq hfits]; rfl, ?_,
    List.rel_append (shows_frame hr.shows hframe)
      (.cons (.state Heap.read_alloc_new hfits) .nil)⟩
  rw [owners_append]
  exact hr.owned.alloc _

/-- A copy owns a block of its own. -/
theorem Represents.copy (hr : Represents s env) {rhs : ℕ} (hv : env.value rhs = .ok v) :
    ∃ s', s.step (.copy rhs) = .ok s' ∧ Represents s' (env ++ [some v]) := by
  obtain ⟨p, hp, -, hshow⟩ := hr.exists_state hv
  obtain ⟨h', q, hcopy, hown, hshow', hframe⟩ := copyOf_owned hr.owned hshow
  refine ⟨⟨h', s.objects ++ [some q]⟩, ?_, ?_,
    List.rel_append (shows_frame hr.shows hframe) (.cons hshow' .nil)⟩
  · rw [step, hp, Exec.ok_bind, hcopy]
    rfl
  · rw [owners_append]
    exact hown

/-- A move takes the block over. -/
theorem Represents.move (hr : Represents s env) {rhs : ℕ} (hv : env.value rhs = .ok v) :
    ∃ s', s.step (.move rhs) = .ok s' ∧
      Represents s' (env.set rhs (some .OK) ++ [some v]) := by
  obtain ⟨p, hp, hget, hshow⟩ := hr.exists_state hv
  refine ⟨⟨s.heap, s.objects.set rhs (some none) ++ [some p]⟩, ?_, ?_,
    List.rel_append (forall₂_set hr.shows .null) (.cons hshow .nil)⟩
  · rw [step, hp]
    rfl
  · rw [owners_append]
    refine hr.owned.perm ((owners_set_perm hget (some none)).trans ?_).symm
    rw [Option.join_some, Option.toList_none, List.append_nil]

/-- Move assignment exchanges the blocks. -/
theorem Represents.moveAssign (hr : Represents s env) {lhs rhs : ℕ} {w : StatusValue}
    (hv : env.value lhs = .ok v) (hw : env.value rhs = .ok w) :
    ∃ s', s.step (.moveAssign lhs rhs) = .ok s' ∧
      Represents s' ((env.set lhs (some w)).set rhs (some v)) := by
  obtain ⟨p, hp, hgetl, hshowl⟩ := hr.exists_state hv
  obtain ⟨q, hq, hgetr, hshowr⟩ := hr.exists_state hw
  refine ⟨⟨s.heap, (s.objects.set lhs (some q)).set rhs (some p)⟩, ?_, ?_,
    forall₂_set (forall₂_set hr.shows hshowr) hshowl⟩
  · rw [step, hp, Exec.ok_bind, hq]
    rfl
  · -- `rhs` holds `q` in between, also when it is `lhs`
    have hmid : (s.objects.set lhs (some q))[rhs]? = some (some q) := by
      by_cases heq : lhs = rhs
      · subst heq
        simp [(List.getElem?_eq_some_iff.1 hgetl).1]
      · rw [List.getElem?_set_ne heq, hgetr]
    have hperm := (owners_set_perm hmid (some p)).trans (owners_set_perm hgetl (some q))
    exact hr.owned.perm ((List.perm_append_right_iff _).1 hperm).symm

/-- The destructor frees what the object owns. -/
theorem Represents.destroy (hr : Represents s env) {object : ℕ} (hv : env.value object = .ok v) :
    ∃ s', s.step (.destroy object) = .ok s' ∧ Represents s' (env.set object none) := by
  obtain ⟨p, hp, hget, -⟩ := hr.exists_state hv
  obtain ⟨h', hdel, hr'⟩ := hr.release hget (o := none) (w := none) (fun _ => .destroyed) rfl
  refine ⟨_, ?_, hr'⟩
  rw [step, hp, Exec.ok_bind, hdel]
  rfl

/-- **One operation**: what means something runs, and shows what it means. -/
theorem represents_step {env' : Values} {op : StatusOp} (hr : Represents s env)
    (hop : env.step op = .ok env') : ∃ s', s.step op = .ok s' ∧ Represents s' env' := by
  cases op with
  | construct =>
    cases hop
    refine ⟨_, rfl, ?_, List.rel_append hr.shows (.cons .null .nil)⟩
    rw [owners_append, Option.join_some, Option.toList_none, List.append_nil]
    exact hr.owned
  | make code msg msg2 fill =>
    simp only [Values.step] at hop
    split at hop
    · rename_i hfits
      cases hop
      exact hr.make hfits
    · cases hop
  | copy rhs =>
    obtain ⟨v, hv, hop⟩ := Exec.bind_eq_ok.1 hop
    cases hop
    exact hr.copy hv
  | move rhs =>
    obtain ⟨v, hv, hop⟩ := Exec.bind_eq_ok.1 hop
    cases hop
    exact hr.move hv
  | assign lhs rhs =>
    obtain ⟨v, hv, hop⟩ := Exec.bind_eq_ok.1 hop
    obtain ⟨w, hw, hop⟩ := Exec.bind_eq_ok.1 hop
    cases hop
    exact hr.assign hv hw
  | moveAssign lhs rhs =>
    obtain ⟨v, hv, hop⟩ := Exec.bind_eq_ok.1 hop
    obtain ⟨w, hw, hop⟩ := Exec.bind_eq_ok.1 hop
    cases hop
    exact hr.moveAssign hv hw
  | destroy object =>
    obtain ⟨v, hv, hop⟩ := Exec.bind_eq_ok.1 hop
    cases hop
    exact hr.destroy hv

/-- **Every program that means something runs**, and its objects show what it means. -/
theorem represents_run {ops : List StatusOp} (h : Machine.run Values.step [] ops = .ok env) :
    ∃ s, Machine.run Statuses.step .empty ops = .ok s ∧ Represents s env := by
  have h₀ : Represents .empty [] := ⟨Heap.owned_empty, .nil⟩
  have hstep : ∀ (env : Values) (op : StatusOp) (env' : Values) (s : Statuses),
      Represents s env → True → env.step op = .ok env' →
        ∃ op' s', op = op' ∧ s.step op' = .ok s' ∧ Represents s' env' := by
    intro env op env' s hr _ hop
    obtain ⟨s', hs', hr'⟩ := represents_step hr hop
    exact ⟨op, s', rfl, hs', hr'⟩
  obtain ⟨ops', s, heq, hrun, hr⟩ := Machine.run_simulates hstep h₀ (Machine.along_true _ _) h
  rw [List.forall₂_eq_eq_eq] at heq
  subst heq
  exact ⟨s, hrun, hr⟩

/-- The block of an object holds its value. -/
theorem Represents.block_eq (hr : Represents s env) (hv : env.value i = .ok v) :
    s.block i = .ok (match v with
      | .OK => none
      | .error code msg => some (Status.stateOf code msg)) := by
  obtain ⟨p, hp, -, hshow⟩ := hr.exists_state hv
  rw [block, hp, Exec.ok_bind]
  cases hshow with
  | null => rfl
  | state hread hfits => simp only [hread, Exec.ok_bind, Exec.pure_eq]

/-- **No program leaks a status or frees one twice.**  A program on status objects that uses each
of them between its construction and its destruction, and whose messages fit, runs without a fault:
it reads and frees no block that is gone, assignment of an object to itself included.  Afterwards
every block that has not been freed belongs to exactly one object, and there is none when all
objects are destroyed. -/
theorem statuses_own_their_memory {ops : List StatusOp} {env : Values}
    (h : Machine.run Values.step [] ops = .ok env) :
    ∃ s, Machine.run Statuses.step .empty ops = .ok s ∧ (owners s.objects).Nodup ∧
      (∀ p, s.heap.Live p ↔ p ∈ owners s.objects) ∧
      ((∀ w ∈ env, w = none) → ∀ p, ¬ s.heap.Live p) := by
  obtain ⟨s, hrun, hr⟩ := represents_run h
  refine ⟨s, hrun, hr.owned.nodup, hr.owned.live_iff, fun hnone p hp => ?_⟩
  -- an owner shows a value
  obtain ⟨o, ho, hop⟩ := List.mem_filterMap.1 ((hr.owned.live_iff p).1 hp)
  obtain ⟨i, hi⟩ := List.getElem?_of_mem ho
  obtain ⟨w, hw, hshow⟩ := forall₂_getElem? hr.shows.flip hi
  rw [hnone w (List.mem_of_getElem? hw)] at hshow
  cases hshow
  cases hop

/-- A status is made, copied, assigned to itself and over the copy, moved, and all are
destroyed. -/
def traceAssign : List StatusOp :=
  [.make .kIOError [111] [97] fun _ => 0, .copy 0, .assign 0 0, .construct, .assign 1 0,
    .moveAssign 2 1, .move 2, .destroy 0, .destroy 1, .destroy 2, .destroy 3]

theorem statuses_own_their_memory_traceAssign :
    ∃ s, Machine.run Statuses.step .empty traceAssign = .ok s ∧ ∀ p, ¬ s.heap.Live p := by
  have hvalues : Machine.run Values.step [] traceAssign = .ok [none, none, none, none] := by
    decide
  obtain ⟨s, hrun, -, -, hfree⟩ := statuses_own_their_memory hvalues
  exact ⟨s, hrun, hfree (by decide)⟩

/-- **Status objects behave as values.**  After such a program `ok`, `code` and `ToString` of an
object that is alive say what a program with plain values would say: a copy is independent of what
it was copied from, a moved-from status is OK, and move assignment exchanges the two. -/
theorem statuses_are_values {ops : List StatusOp} {env : Values}
    (h : Machine.run Values.step [] ops = .ok env) :
    ∃ s, Machine.run Statuses.step .empty ops = .ok s ∧ ∀ i v, env.value i = .ok v →
      s.ok i = .ok (v = .OK) ∧ s.code i = .ok v.code ∧ s.toString i = .ok v.toString := by
  obtain ⟨s, hrun, hr⟩ := represents_run h
  refine ⟨s, hrun, fun i v hv => ?_⟩
  obtain ⟨p, hp, -, hshow⟩ := hr.exists_state hv
  have hblock := hr.block_eq hv
  rw [Statuses.ok, hp, Statuses.code, Statuses.toString, hblock, Exec.ok_bind, Exec.ok_bind,
    Exec.ok_bind]
  cases hshow with
  | null => exact ⟨rfl, rfl, rfl⟩
  | state hread hfits =>
    exact ⟨by simp, Status.codeByte_stateOf _ _, Status.stateToString_stateOf hfits⟩

/-- A status is copied, and then another one is assigned over it. -/
def traceCopy : List StatusOp :=
  [.make .kIOError [111] [97] fun _ => 0, .copy 0, .construct, .assign 0 2]

theorem statuses_are_values_traceCopy :
    ∃ s, Machine.run Statuses.step .empty traceCopy = .ok s ∧ s.ok 0 = .ok true ∧
      s.toString 1 = .ok (Code.kIOError.type ++ [111, 58, 32, 97]) := by
  have hvalues : Machine.run Values.step [] traceCopy =
      .ok [some .OK, some (.error .kIOError [111, 58, 32, 97]), some .OK] := by
    decide
  obtain ⟨s, hrun, hval⟩ := statuses_are_values hvalues
  have h1 := hval 1 (.error .kIOError [111, 58, 32, 97]) rfl
  exact ⟨s, hrun, (hval 0 .OK rfl).1, h1.2.2⟩

end Represents

end KoishiDB
