import Mathlib.Tactic.Common

/-!
# Self-delimiting codes

A decoder takes a value off the front of its input and returns what is left of the input.  A code
is *self-delimiting* when the decoder finds its end without help: the same value is read whatever
stands behind the code, and nothing is read from a code that was cut off.

* `decodeList_flatMap` : codes that stand one behind the other are read back one after the other.
* `Delimits.andThen` : two self-delimiting codes make one.
-/

namespace KoishiDB

/-! ### Lists of codes -/

section List

variable {α β : Type} {m : Type → Type} [Monad m]

/-- Takes `n` values off the front of the input. -/
def decodeList (decode : List β → m (α × List β)) : ℕ → List β → m (List α × List β)
  | 0, s => pure ([], s)
  | n + 1, s => do
    let (a, s) ← decode s
    let (as, s) ← decodeList decode n s
    return (a :: as, s)

/-- A list of codes is read back, if each of its codes is, whatever follows. -/
theorem decodeList_flatMap [LawfulMonad m] {decode : List β → m (α × List β)}
    {encode : α → List β} {as : List α}
    (h : ∀ a ∈ as, ∀ rest, decode (encode a ++ rest) = pure (a, rest)) (rest : List β) :
    decodeList decode as.length (as.flatMap encode ++ rest) = pure (as, rest) := by
  induction as with
  | nil => rfl
  | cons a as ih =>
    obtain ⟨ha, has⟩ := List.forall_mem_cons.1 h
    simp only [List.length_cons, List.flatMap_cons, List.append_assoc, decodeList, ha, pure_bind,
      ih has]

end List

/-! ### Codes that are cut off -/

section Cut

variable {α β γ δ : Type}

/-- The decoder reads `code` as `a`, whatever follows, and reads nothing from a part of it. -/
structure Delimits (decode : List β → Option (α × List β)) (code : List β) (a : α) : Prop where
  read : ∀ rest, decode (code ++ rest) = some (a, rest)
  cut : ∀ n < code.length, decode (code.take n) = none

/-- Two decoders one after the other, the values put together by `f`. -/
def andThen (f : α → γ → δ) (first : List β → Option (α × List β))
    (second : List β → Option (γ × List β)) (s : List β) : Option (δ × List β) := do
  let (a, s) ← first s
  let (c, s) ← second s
  return (f a c, s)

variable {first : List β → Option (α × List β)} {second : List β → Option (γ × List β)}
  {code code' : List β} {a : α} {c : γ}

theorem Delimits.andThen (f : α → γ → δ) (h : Delimits first code a)
    (h' : Delimits second code' c) :
    Delimits (andThen f first second) (code ++ code') (f a c) where
  read rest := by simp [KoishiDB.andThen, h.read, h'.read]
  cut n hn := by
    rcases Nat.lt_or_ge n code.length with hlt | hge
    · -- the first code is cut off already
      rw [List.take_append_of_le_length (Nat.le_of_lt hlt)]
      simp [KoishiDB.andThen, h.cut n hlt]
    · have hcut : n - code.length < code'.length := by
        rw [List.length_append] at hn
        omega
      rw [List.take_append, List.take_of_length_le hge]
      simp [KoishiDB.andThen, h.read, h'.cut _ hcut]

end Cut

end KoishiDB
