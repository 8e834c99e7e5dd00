import KoishiDB.Common

/-!
# The server

`network/parser.cpp` and the handler of `EPOLLIN` events in `main.cc`.  A request is an op line, a
key line and, for a `Put`, a value line.  Every event is handled by one `read` of at most 1024
bytes, which are appended to what the connection has received; everything received so far is then
parsed and executed, whether or not the request is complete, and the connection is closed.

The loop of the parser counts the bytes in an `int`, so it overflows on `2 ^ 31` bytes or more.

* `parseAll_message_iff` : the parser inverts the wire format for shorter messages.
* `parseAll_take` : what the parser makes of the first bytes of a request.
* `serves_iff` : a request is executed as it was sent if and only if its first read delivers enough
  of it.
-/

namespace KoishiDB

/-! ### The parser -/

/-- `class request`. -/
structure Request where
  opCode : ℤ
  key : Bytes
  value : Bytes
deriving Repr, DecidableEq

/-- The byte `\r`. -/
def carriageReturn : UInt8 := 13

/-- The bytes `\r\n`. -/
def crlf : Bytes := [13, 10]

/-- A `char` as a number. -/
def charValue (b : UInt8) : ℤ := if b < 128 then b.toNat else b.toNat - 256

/-- The loop of `parse_all` from the byte number `i` on: `flag` says that a `\r` has been seen, with
which the byte behind it is skipped. -/
def parseLoop (i : ℤ) (flag : Bool) (req : Request) : Bytes → Exec Request
  | [] => .ok req
  | b :: rest =>
    if b ≠ carriageReturn then do
      let i ← addInt i 1
      if flag = false then parseLoop i flag { req with key := req.key ++ [b] } rest
      else parseLoop i flag { req with value := req.value ++ [b] } rest
    else do
      -- `i++` in the body, and that of the loop
      let i ← addInt i 1
      let i ← addInt i 1
      match rest with
      | [] => return req
      | _ :: rest => parseLoop i true req rest

/-- `Parser::parse_all`, with everything the connection has received.  The element behind the end
of a string is the zero byte. -/
def parseAll (readData : Bytes) : Exec Request :=
  parseLoop 3 false ⟨charValue (readData.getD 0 0) - charValue 48, [], []⟩ (readData.drop 3)

/-! ### The handler -/

/-- A call of the database. -/
inductive DbCall where
  | put (key value : Bytes)
  | get (key : Bytes)
  | delete (key : Bytes)
deriving Repr, DecidableEq

/-- The `switch` of the handler. -/
def Request.call (req : Request) : Option DbCall :=
  if req.opCode = 1 then some (.put req.key req.value)
  else if req.opCode = 2 then some (.get req.key)
  else if req.opCode = 3 then some (.delete req.key)
  else none

/-- A connection: whether it is open, what it has received, and the calls of the database made for
it. -/
structure Connection where
  isOpen : Bool
  read : Bytes
  executed : List DbCall
deriving Repr, DecidableEq

namespace Connection

/-- A connection that has been accepted. -/
def make : Connection := ⟨true, [], []⟩

/-- The size of the buffer of `Parser::read`. -/
def kReadBuffer : ℕ := 1024

/-- `Parser::read`: the connection and its request, or nothing when the `read` call fails. -/
def readRequest (c : Connection) : Option Bytes → Exec (Option (Connection × Request))
  | none => .ok none
  | some bytes => do
    let c := { c with read := c.read ++ bytes }
    let req ← parseAll c.read
    return some (c, req)

/-- The handling of one `EPOLLIN` event.  A connection that has been closed gets no more of
them. -/
def handle (c : Connection) (received : Option Bytes) : Exec Connection :=
  if c.isOpen then do
    match ← c.readRequest received with
    | none => return c
    | some (c, req) => return { c with isOpen := false, executed := c.executed ++ req.call.toList }
  else .ok c

/-- The events for the chunks of a transmission. -/
def serve (c : Connection) (chunks : List Bytes) : Exec Connection :=
  chunks.foldlM (fun c chunk => c.handle (some chunk)) c

end Connection

/-! ### Requests on the wire -/

/-- The operations of the wire format. -/
inductive OpCode where
  | put
  | get
  | delete
deriving Repr, DecidableEq

/-- The digit of the op line. -/
def OpCode.digit : OpCode → UInt8
  | put => 49
  | get => 50
  | delete => 51

/-- What the parser makes of the digit. -/
def OpCode.number : OpCode → ℤ
  | put => 1
  | get => 2
  | delete => 3

theorem charValue_digit (op : OpCode) : charValue op.digit - charValue 48 = op.number := by
  cases op <;> rfl

/-- A request message; the keys and values are free of `\r`. -/
structure Message where
  op : OpCode
  key : Bytes
  value : Option Bytes
  key_free : carriageReturn ∉ key
  value_free : ∀ v ∈ value, carriageReturn ∉ v

namespace Message

/-- What follows the op line. -/
def lines (m : Message) : Bytes := m.key ++ crlf ++ m.value.elim [] (· ++ crlf)

/-- The bytes of the message. -/
def wire (m : Message) : Bytes := m.op.digit :: (crlf ++ m.lines)

/-- The call that the message asks for. -/
def call (m : Message) : DbCall :=
  match m.op with
  | .put => .put m.key (m.value.getD [])
  | .get => .get m.key
  | .delete => .delete m.key

/-- The bytes that the key takes, with everything in front of it. -/
def keyEnd (m : Message) : ℕ := if m.key = [] then 1 else 3 + m.key.length

/-- How many bytes of the message there must be for the whole key and the whole value. -/
def needed (m : Message) : ℕ :=
  if m.op = .put ∧ m.value.getD [] ≠ [] then 3 + m.key.length + 2 + (m.value.getD []).length
  else m.keyEnd

end Message

/-! ### What the parser makes of a part of a message -/

section Loop

variable {i : ℤ} (hi : 0 ≤ i) (flag : Bool) (req : Request)
include hi

theorem parseLoop_cons_of_ne {b : UInt8} (hb : b ≠ carriageReturn) (hlt : i + 1 < 2 ^ 31)
    (rest : Bytes) :
    parseLoop i flag req (b :: rest) =
      parseLoop (i + 1) flag (if flag = false then { req with key := req.key ++ [b] }
        else { req with value := req.value ++ [b] }) rest := by
  have hadd : addInt i 1 = .ok (i + 1) := addInt_of ⟨by omega, hlt⟩
  cases flag <;> simp [parseLoop, hb, hadd]

/-- A `\r` is skipped with the byte behind it. -/
theorem parseLoop_cons_return (hlt : i + 2 < 2 ^ 31) (rest : Bytes) :
    parseLoop i flag req (carriageReturn :: rest) =
      match rest with
      | [] => .ok req
      | _ :: rest => parseLoop (i + 2) true req rest := by
  have h1 : addInt i 1 = .ok (i + 1) := addInt_of ⟨by omega, by omega⟩
  have h2 : addInt (i + 1) 1 = .ok (i + 1 + 1) := addInt_of ⟨by omega, by omega⟩
  have htwo : i + 1 + 1 = i + 2 := by omega
  cases rest <;> simp [parseLoop, h1, h2, htwo]

/-- Bytes other than `\r` go to the key or to the value. -/
theorem parseLoop_append {s : Bytes} (hs : carriageReturn ∉ s) (hlt : i + s.length < 2 ^ 31)
    (rest : Bytes) :
    parseLoop i flag req (s ++ rest) =
      parseLoop (i + s.length) flag (if flag = false then { req with key := req.key ++ s }
        else { req with value := req.value ++ s }) rest := by
  induction s generalizing i req with
  | nil => cases flag <;> simp
  | cons b s ih =>
    obtain ⟨hb, hs⟩ := not_or.1 (mt List.mem_cons.2 hs)
    rw [List.length_cons, Nat.cast_add, Nat.cast_one] at hlt ⊢
    rw [List.cons_append, parseLoop_cons_of_ne hi flag req (Ne.symm hb) (by omega),
      ih (by omega) _ hs (by omega), show i + 1 + (s.length : ℤ) = i + (s.length + 1) by omega]
    cases flag <;> simp

/-- The end of a line changes the flag only, even when it is cut. -/
theorem parseLoop_take_crlf {n : ℕ} (hlt : 0 < n → i + 2 < 2 ^ 31) (rest : Bytes) :
    parseLoop i flag req ((crlf ++ rest).take n) =
      if n < 2 then .ok req else parseLoop (i + 2) true req (rest.take (n - 2)) := by
  match n with
  | 0 => rfl
  | 1 => exact parseLoop_cons_return hi flag req (hlt Nat.one_pos) []
  | n + 2 =>
    have : ¬ n + 2 < 2 := by omega
    rw [if_neg this]
    exact parseLoop_cons_return hi flag req (hlt (by omega)) (10 :: rest.take n)

/-- **The counter overflows** behind `2 ^ 31` bytes, whatever they are. -/
theorem parseLoop_overflow {rest : Bytes} (hlt : i < 2 ^ 31) (h : 2 ^ 31 ≤ i + rest.length) :
    parseLoop i flag req rest = .error .overflow := by
  induction hn : rest.length using Nat.strong_induction_on generalizing i flag req rest with
  | _ n ih =>
    cases rest with
    | nil =>
      rw [List.length_nil] at h
      omega
    | cons b rest =>
      rw [List.length_cons, Nat.cast_add, Nat.cast_one] at h
      rw [List.length_cons] at hn
      have hmax : ∀ j : ℤ, ¬ j + 1 < 2 ^ 31 → addInt j 1 = .error .overflow := fun j hj =>
        if_neg fun hrange => hj hrange.2
      by_cases hone : i + 1 < 2 ^ 31
      · by_cases hb : b = carriageReturn
        · by_cases htwo : i + 2 < 2 ^ 31
          · rw [hb, parseLoop_cons_return hi flag req htwo]
            cases rest with
            | nil =>
              rw [List.length_nil] at h
              omega
            | cons c rest =>
              rw [List.length_cons] at hn
              rw [List.length_cons, Nat.cast_add, Nat.cast_one] at h
              exact ih rest.length (by omega) (by omega) true req htwo (by omega) rfl
          · have h1 : addInt i 1 = .ok (i + 1) := addInt_of ⟨by omega, hone⟩
            simp [parseLoop, hb, h1, hmax (i + 1) (by omega)]
        · rw [parseLoop_cons_of_ne hi flag req hb hone]
          exact ih rest.length (by omega) (by omega) flag _ hone (by omega) rfl
      · by_cases hb : b = carriageReturn
        · simp [parseLoop, hb, hmax i hone]
        · simp [parseLoop, hb, hmax i hone]

end Loop

/-- The lines of a message, cut somewhere: so much of the key, and so much of the value behind
it.  The bytes up to there can be counted. -/
theorem parseLoop_take_lines (m : Message) (opCode : ℤ) {n : ℕ}
    (hlt : n + 4 < 2 ^ 31 ∨ m.wire.length < 2 ^ 31) :
    parseLoop 3 false ⟨opCode, [], []⟩ (m.lines.take n) =
      .ok ⟨opCode, m.key.take n, (m.value.getD []).take (n - m.key.length - 2)⟩ := by
  have hkey : carriageReturn ∉ m.key.take n := fun h => m.key_free (List.mem_of_mem_take h)
  have hlen : (m.key.take n).length = min n m.key.length := List.length_take
  have hwire : m.wire.length = 3 + m.key.length + 2 + (m.value.elim [] (· ++ crlf)).length := by
    simp only [Message.wire, Message.lines, crlf, List.length_cons, List.length_append,
      List.length_nil]
    omega
  rw [Message.lines, List.append_assoc, List.take_append,
    parseLoop_append (by decide) _ _ hkey (by omega),
    parseLoop_take_crlf (by omega) _ _ (by omega)]
  simp only [↓reduceIte, List.nil_append]
  by_cases hn : n - m.key.length < 2
  · rw [if_pos hn, Nat.sub_eq_zero_of_le (Nat.le_of_lt hn), List.take_zero]
  · rw [if_neg hn]
    cases hv : m.value with
    | none => simp [parseLoop]
    | some v =>
      have hvalue : carriageReturn ∉ v.take (n - m.key.length - 2) :=
        fun h => m.value_free v hv (List.mem_of_mem_take h)
      have hvlen : (v.take (n - m.key.length - 2)).length = min (n - m.key.length - 2) v.length :=
        List.length_take
      rw [hv, Option.elim_some, List.length_append] at hwire
      have hcrlf : crlf.length = 2 := rfl
      have hend := @parseLoop_take_crlf (3 + (m.key.take n).length + 2 +
        (v.take (n - m.key.length - 2)).length) (by omega) true
        ⟨opCode, m.key.take n, v.take (n - m.key.length - 2)⟩ (n - m.key.length - 2 - v.length)
        (by omega) []
      simp only [List.append_nil, List.take_nil] at hend
      rw [Option.elim_some, Option.getD_some, List.take_append,
        parseLoop_append (by omega) _ _ hvalue (by omega)]
      simp only [Bool.true_eq_false, ↓reduceIte, List.nil_append, hend, parseLoop, ite_self]

/-- **The parser on the first bytes of a message.** -/
theorem parseAll_take (m : Message) {n : ℕ} (hn : 0 < n)
    (hlt : n + 4 < 2 ^ 31 ∨ m.wire.length < 2 ^ 31) :
    parseAll (m.wire.take n) = .ok ⟨charValue m.op.digit - charValue 48, m.key.take (n - 3),
      (m.value.getD []).take (n - 3 - m.key.length - 2)⟩ := by
  have hfirst : (m.wire.take n).getD 0 0 = m.op.digit := by
    obtain ⟨n, rfl⟩ := Nat.exists_eq_succ_of_ne_zero hn.ne'
    rfl
  have hrest : (m.wire.take n).drop 3 = m.lines.take (n - 3) := by
    rw [List.drop_take]
    rfl
  rw [parseAll, hfirst, hrest, parseLoop_take_lines m _ (hlt.imp_left (by omega))]

/-- The bytes of a message with any digit. -/
def wireOf (digit : ℕ) (key : Bytes) (value : Option Bytes) : Bytes :=
  UInt8.ofNat (48 + digit) :: (crlf ++ (key ++ crlf ++ value.elim [] (· ++ crlf)))

theorem parseAll_wireOf {digit : ℕ} (hdigit : digit < 10) (key : Bytes) (value : Option Bytes) :
    parseAll (wireOf digit key value) =
      parseLoop 3 false ⟨digit, [], []⟩ (key ++ crlf ++ value.elim [] (· ++ crlf)) := by
  have hop : ∀ d < 10, charValue (UInt8.ofNat (48 + d)) - charValue 48 = d := by decide
  rw [← hop digit hdigit]
  rfl

theorem length_wireOf (digit : ℕ) (key : Bytes) (value : Option Bytes) :
    (wireOf digit key value).length =
      3 + (key ++ crlf ++ value.elim [] (· ++ crlf)).length := by
  rw [wireOf, List.length_cons, List.length_append]
  simp only [crlf, List.length_cons, List.length_nil]
  omega

/-- The counter overflows in a message of `2 ^ 31` bytes or more. -/
theorem parseAll_overflow {digit : ℕ} (hdigit : digit < 10) {key : Bytes} {value : Option Bytes}
    (hlong : 2 ^ 31 ≤ (wireOf digit key value).length) :
    parseAll (wireOf digit key value) = .error .overflow := by
  rw [length_wireOf] at hlong
  rw [parseAll_wireOf hdigit]
  exact parseLoop_overflow (by decide) _ _ (by decide) (by omega)

/-- **Parsing inverts the wire format, as long as the bytes can be counted.**  For every digit,
every key and every value without a `\r`, and for messages with and without a value line, the parser
finds the value of the digit, the key and the value, if and only if the message is shorter than
`2 ^ 31` bytes. -/
theorem parseAll_message_iff (digit : ℕ) (key : Bytes) (value : Option Bytes) (hdigit : digit < 10)
    (hkey : carriageReturn ∉ key) (hvalue : ∀ v ∈ value, carriageReturn ∉ v) :
    parseAll (wireOf digit key value) = .ok ⟨digit, key, value.getD []⟩ ↔
      (wireOf digit key value).length < 2 ^ 31 := by
  constructor
  · intro h
    by_contra hlong
    rw [parseAll_overflow hdigit (not_lt.1 hlong)] at h
    cases h
  · intro hlt
    rw [parseAll_wireOf hdigit]
    have hlines := parseLoop_take_lines ⟨.put, key, value, hkey, hvalue⟩ digit
      (n := key.length + 2 + (value.getD []).length + 2) (.inr hlt)
    have hall : Message.lines ⟨.put, key, value, hkey, hvalue⟩ =
        key ++ crlf ++ value.elim [] (· ++ crlf) := rfl
    have hlen : (key ++ crlf ++ value.elim [] (· ++ crlf)).length ≤
        key.length + 2 + (value.getD []).length + 2 := by
      cases value <;> simp [crlf]
      omega
    dsimp only at hlines
    rwa [hall, List.take_of_length_le hlen, List.take_of_length_le (by omega),
      List.take_of_length_le (by omega)] at hlines

/-- A message with line feeds and a zero byte in its key, and an empty value. -/
theorem parseAll_message_iff_line_feeds :
    parseAll [49, 13, 10, 10, 0, 10, 13, 10, 13, 10] = .ok ⟨1, [10, 0, 10], []⟩ :=
  (parseAll_message_iff 1 [10, 0, 10] (some []) (by decide) (by decide) (by decide)).2 (by decide)

/-- A `Get` of a key of `2 ^ 31` bytes is not parsed. -/
theorem parseAll_fails_long_key :
    ¬ ∀ (digit : ℕ) (key : Bytes) (value : Option Bytes), digit < 10 → carriageReturn ∉ key →
      (∀ v ∈ value, carriageReturn ∉ v) →
        parseAll (wireOf digit key value) = .ok ⟨digit, key, value.getD []⟩ := by
  intro h
  have hlen : (List.replicate (2 ^ 31) (97 : UInt8)).length = 2 ^ 31 := List.length_replicate
  have hkey : carriageReturn ∉ List.replicate (2 ^ 31) (97 : UInt8) := fun hmem =>
    absurd (List.eq_of_mem_replicate hmem) (by decide)
  generalize List.replicate (2 ^ 31) (97 : UInt8) = key at hlen hkey
  have hlong : 2 ^ 31 ≤ (wireOf 2 key none).length := by
    rw [length_wireOf, List.length_append, List.length_append, hlen]
    omega
  have hparse := h 2 key none (by decide) hkey (by simp)
  rw [parseAll_overflow (by decide) hlong] at hparse
  cases hparse

/-! ### When a request is executed as it was sent -/

theorem take_eq_self_iff_le {s : Bytes} {n : ℕ} : s.take n = s ↔ s.length ≤ n := by
  constructor
  · intro h
    have := congrArg List.length h
    rw [List.length_take] at this
    omega
  · exact List.take_of_length_le

/-- What is executed after the first bytes of a message is the call it asks for if and only if they
are enough. -/
theorem call_parseAll_take (m : Message) {n : ℕ} (hn : 0 < n)
    (hlt : n + 4 < 2 ^ 31 ∨ m.wire.length < 2 ^ 31) :
    ∃ req, parseAll (m.wire.take n) = .ok req ∧ (req.call = some m.call ↔ m.needed ≤ n) := by
  have hkey : m.key.take (n - 3) = m.key ↔ m.keyEnd ≤ n := by
    rw [take_eq_self_iff_le, Message.keyEnd]
    split_ifs with h
    · rw [h, List.length_nil]
      omega
    · have := List.length_pos_iff.2 h
      omega
  have hvalue : (m.value.getD []).take (n - 3 - m.key.length - 2) = m.value.getD [] ↔
      m.value.getD [] = [] ∨ 3 + m.key.length + 2 + (m.value.getD []).length ≤ n := by
    rw [take_eq_self_iff_le]
    by_cases h : m.value.getD [] = []
    · simp [h]
    · have := List.length_pos_iff.2 h
      simp only [h, false_or]
      omega
  have hle : m.keyEnd ≤ 3 + m.key.length := by
    rw [Message.keyEnd]
    split_ifs <;> omega
  -- A put is complete with its value; the other two do not read behind the key.
  refine ⟨_, parseAll_take m hn hlt, ?_⟩
  rw [Message.needed, Message.call, charValue_digit]
  cases hop : m.op with
  | put =>
    by_cases h : m.value.getD [] = []
    · simpa [Request.call, OpCode.number, h] using hkey
    · have : m.keyEnd ≤ n ∧ 3 + m.key.length + 2 + (m.value.getD []).length ≤ n ↔
          3 + m.key.length + 2 + (m.value.getD []).length ≤ n := by omega
      simpa [Request.call, OpCode.number, hkey, hvalue, h] using this
  | get => simpa [Request.call, OpCode.number] using hkey
  | delete => simpa [Request.call, OpCode.number] using hkey

namespace Connection

/-- A closed connection is left alone. -/
theorem serve_closed {c : Connection} (h : c.isOpen = false) (chunks : List Bytes) :
    c.serve chunks = .ok c := by
  induction chunks with
  | nil => rfl
  | cons chunk chunks ih =>
    have hclosed : c.handle (some chunk) = .ok c := by simp [handle, h]
    rw [serve, List.foldlM_cons, hclosed]
    exact ih

/-- Only the first chunk counts, and it is all that the parser gets. -/
theorem serve_cons {chunk : Bytes} {req : Request} (h : parseAll chunk = .ok req)
    (chunks : List Bytes) :
    make.serve (chunk :: chunks) = .ok ⟨false, chunk, req.call.toList⟩ := by
  have hhandle : make.handle (some chunk) = .ok ⟨false, chunk, req.call.toList⟩ := by
    simp [handle, make, readRequest, h]
  rw [serve, List.foldlM_cons, hhandle]
  exact serve_closed rfl chunks

end Connection

/-- **When the server executes the request that was sent.**  For every message and every way to cut
it into reads of at most 1024 bytes: the server returns, and the calls made for the connection are
exactly the one that the message asks for if and only if the first read delivers the whole key and
the whole value. -/
theorem serves_iff (m : Message) (chunks : List Bytes) (hwire : chunks.flatten = m.wire)
    (hchunks : ∀ c ∈ chunks, c ≠ [] ∧ c.length ≤ Connection.kReadBuffer) :
    ∃ conn, Connection.make.serve chunks = .ok conn ∧
      (conn.executed = [m.call] ↔ ∃ c ∈ chunks.head?, m.needed ≤ c.length) := by
  cases chunks with
  | nil => cases hwire
  | cons c chunks =>
    obtain ⟨hne, hlen⟩ := hchunks c List.mem_cons_self
    have hpos : 0 < c.length := List.length_pos_iff.2 hne
    have htake : c = m.wire.take c.length := by
      rw [← hwire, List.flatten_cons, List.take_left' rfl]
    -- a read has so few bytes that the parser can count them
    have hcount : c.length + 4 < 2 ^ 31 := by
      unfold Connection.kReadBuffer at hlen
      omega
    obtain ⟨req, hparse, hcall⟩ := call_parseAll_take m hpos (.inl hcount)
    rw [← htake] at hparse
    refine ⟨_, Connection.serve_cons hparse chunks, ?_⟩
    rw [List.head?_cons]
    simp only [Option.mem_def, Option.some.injEq, exists_eq_left', ← hcall]
    cases req.call <;> simp

/-- A `Put` of the key `key` and the value `v`. -/
def putKeyV : Message where
  op := .put
  key := [107, 101, 121]
  value := some [118]
  key_free := by decide
  value_free := by decide

/-- The message in one read. -/
theorem serves_iff_one_read :
    ∃ conn, Connection.make.serve [putKeyV.wire] = .ok conn ∧
      conn.executed = [.put [107, 101, 121] [118]] := by
  obtain ⟨conn, hconn, hiff⟩ := serves_iff putKeyV [putKeyV.wire] (by decide) (by decide)
  exact ⟨conn, hconn, hiff.2 ⟨_, rfl, by decide⟩⟩

/-- The message in two reads, cut behind the first byte of the key: a shorter key and no value are
put. -/
theorem serves_part_of_request :
    ¬ ∀ (m : Message) (chunks : List Bytes), chunks.flatten = m.wire →
      (∀ c ∈ chunks, c ≠ [] ∧ c.length ≤ Connection.kReadBuffer) →
        ∃ conn, Connection.make.serve chunks = .ok conn ∧ conn.executed = [m.call] := by
  intro h
  obtain ⟨conn, hconn, hexec⟩ := h putKeyV [putKeyV.wire.take 4, putKeyV.wire.drop 4] (by decide)
    (by decide)
  have hrun : (Connection.make.serve [putKeyV.wire.take 4, putKeyV.wire.drop 4]).map
      Connection.executed = .ok [.put [107] []] := by decide
  rw [hconn] at hrun
  exact absurd (hexec.symm.trans (Except.ok.inj hrun)) (by decide)

end KoishiDB
