import KoishiDB.Base.Bytes

/-!
# Constants, key types and statuses

The constants of `common/common.h`, the key types, and `common/status.h`: a status is OK or holds
a code and a message.
-/

namespace KoishiDB

/-- `enum class KeyType : uint8_t`. -/
inductive KeyType where
  | kTypeValue
  | kTypeDeletion
deriving Repr, DecidableEq

namespace KeyType

/-- The byte of a key type. -/
def toNat : KeyType → ℕ
  | kTypeValue => 0x01
  | kTypeDeletion => 0x02

/-- `static_cast<KeyType>` of a byte; `none` is a value that no `case` label names. -/
def ofByte (b : UInt8) : Option KeyType :=
  if b = 0x01 then some kTypeValue else if b = 0x02 then some kTypeDeletion else none

theorem toNat_lt (t : KeyType) : t.toNat < 256 := by cases t <;> decide

@[simp] theorem ofByte_toNat (t : KeyType) : ofByte (UInt8.ofNat t.toNat) = some t := by
  cases t <;> decide

end KeyType

/-- The key type of the keys used to search. -/
def kTypeSeek : KeyType := .kTypeValue

/-- Number of levels of the head of a skip list, and the height bound of its nodes. -/
def kSkipListNodeMaxLevel : ℕ := 20

/-- Bytes of the header of a write batch: sequence (8) and count (4). -/
def kWriteBatchHeader : ℕ := 12

/-- Size from which on a memtable is full. -/
def kMaxMemtableSize : ℕ := 4096

/-- Size from which on a data block is written out. -/
def kBlockSize : ℕ := 4096

/-- Size of the buffer of a writable file. -/
def kWritableFileBuffer : ℕ := 65536

/-- Bits of a Bloom filter for each key. -/
def kBloomFilterPerKeySize : ℕ := 10

/-- Logarithm of the number of file bytes that share a filter. -/
def kFilterBaseLg : ℕ := 11

/-- Number of file bytes that share a filter. -/
def kFilterBase : ℕ := 1 <<< kFilterBaseLg

/-- Bytes of a table footer. -/
def kFixedFooterSize : ℕ := 40

/-- Size of the buffer that the manifest is read into. -/
def kManifestReserved : ℕ := 4196

/-- Conversion to `uint32_t`. -/
def u32 (n : ℕ) : ℕ := n % 2 ^ 32

/-- Conversion to `uint64_t` (and to `size_t`). -/
def u64 (n : ℕ) : ℕ := n % 2 ^ 64

/-- The largest `uint64_t`. -/
def UINT64_MAX : ℕ := 2 ^ 64 - 1

theorem u32_of_lt {n : ℕ} (h : n < 2 ^ 32) : u32 n = n := Nat.mod_eq_of_lt h

theorem u64_of_lt {n : ℕ} (h : n < 2 ^ 64) : u64 n = n := Nat.mod_eq_of_lt h

/-- The range of `int`. -/
def IntRange (a : ℤ) : Prop := -2 ^ 31 ≤ a ∧ a < 2 ^ 31

instance (a : ℤ) : Decidable (IntRange a) := inferInstanceAs (Decidable (_ ∧ _))

/-- The sum of two `int`s. -/
def addInt (a b : ℤ) : Exec ℤ := if IntRange (a + b) then .ok (a + b) else .error .overflow

/-- The product of two `int`s. -/
def mulInt (a b : ℤ) : Exec ℤ := if IntRange (a * b) then .ok (a * b) else .error .overflow

/-- `static_cast<int>` of a `uint32_t`. -/
def toInt32 (n : ℕ) : ℤ := if n < 2 ^ 31 then n else (n : ℤ) - 2 ^ 32

theorem toInt32_of_lt {n : ℕ} (h : n < 2 ^ 31) : toInt32 n = n := if_pos h

theorem addInt_eq_ok {a b c : ℤ} : addInt a b = .ok c ↔ IntRange (a + b) ∧ a + b = c := by
  unfold addInt
  split_ifs with h
  · simp only [Except.ok.injEq, h, true_and]
  · simp only [h, false_and]

theorem addInt_of {a b : ℤ} (h : IntRange (a + b)) : addInt a b = .ok (a + b) := if_pos h

theorem mulInt_of {a b : ℤ} (h : IntRange (a * b)) : mulInt a b = .ok (a * b) := if_pos h

/-- The error codes of a status. -/
inductive Code where
  | kNotFound
  | kCorruption
  | kNotSupported
  | kInvalidArgument
  | kIOError
deriving Repr, DecidableEq

/-- The result of a fallible operation. -/
inductive Status where
  | OK
  | error (code : Code) (msg : String)
deriving Repr, DecidableEq

namespace Status

/-- `Status::ok`. -/
def ok : Status → Bool
  | OK => true
  | error _ _ => false

/-- The private constructor: the second message follows the first after a colon, if there is
one. -/
def make (code : Code) (msg msg2 : String) : Status :=
  error code (if msg2 = "" then msg else msg ++ ": " ++ msg2)

theorem ok_eq_true_iff {s : Status} : s.ok = true ↔ s = OK := by
  cases s <;> simp [ok]

/-- The status behind an `if (!s.ok()) return`. -/
theorem eq_OK_of_not {s : Status} (h : ¬ (!s.ok) = true) : s = OK :=
  ok_eq_true_iff.1 (by simpa using h)

end Status

end KoishiDB
