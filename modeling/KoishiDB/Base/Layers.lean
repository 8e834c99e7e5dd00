import Mathlib.Order.Basic

/-!
# Layers of numbers

Three collections of numbers, each above the one before it, and all of them up to a bound: the
numbers of what has been archived, of what is about to be archived, and of what is current.  The
lemmas say how the layers stay apart when new numbers arrive above the bound, when the current ones
are set aside, and when what was set aside is archived.
-/

namespace KoishiDB

/-- `ts` is below `is`, which is below `ms`, and all of them are at most `L`. -/
structure Layered {α : Type} [Preorder α] (ts is ms : List α) (L : α) : Prop where
  ts_lt_is : ∀ s ∈ ts, ∀ s' ∈ is, s < s'
  ts_lt_ms : ∀ s ∈ ts, ∀ s' ∈ ms, s < s'
  is_lt_ms : ∀ s ∈ is, ∀ s' ∈ ms, s < s'
  ts_le : ∀ s ∈ ts, s ≤ L
  is_le : ∀ s ∈ is, s ≤ L
  ms_le : ∀ s ∈ ms, s ≤ L

namespace Layered

variable {α : Type} [Preorder α] {ts is ms xs : List α} {L L' : α}

/-- Nothing is current and nothing is set aside. -/
theorem of_archive (h : ∀ s ∈ ts, s ≤ L) : Layered ts [] [] L := by
  constructor <;> simp_all

/-- What is current is set aside. -/
theorem rotate (h : Layered ts [] ms L) : Layered ts ms [] L :=
  ⟨h.ts_lt_ms, by simp, by simp, h.ts_le, h.ms_le, by simp⟩

/-- New numbers above the bound become current. -/
theorem push (h : Layered ts is ms L) (hL : L ≤ L') (hxs : ∀ s ∈ xs, L < s ∧ s ≤ L') :
    Layered ts is (ms ++ xs) L' := by
  refine ⟨h.ts_lt_is, ?_, ?_, fun s hs => (h.ts_le s hs).trans hL,
    fun s hs => (h.is_le s hs).trans hL, ?_⟩
  · intro s hs s' hs'
    rcases List.mem_append.1 hs' with hs' | hs'
    · exact h.ts_lt_ms s hs s' hs'
    · exact (h.ts_le s hs).trans_lt (hxs s' hs').1
  · intro s hs s' hs'
    rcases List.mem_append.1 hs' with hs' | hs'
    · exact h.is_lt_ms s hs s' hs'
    · exact (h.is_le s hs).trans_lt (hxs s' hs').1
  · intro s hs
    rcases List.mem_append.1 hs with hs | hs
    · exact (h.ms_le s hs).trans hL
    · exact (hxs s hs).2

/-- Some of what was set aside is archived, and the rest forgotten. -/
theorem archive (h : Layered ts is ms L) (hxs : xs ⊆ is) : Layered (ts ++ xs) [] ms L := by
  refine ⟨by simp, ?_, by simp, ?_, by simp, h.ms_le⟩
  · intro s hs s' hs'
    rcases List.mem_append.1 hs with hs | hs
    · exact h.ts_lt_ms s hs s' hs'
    · exact h.is_lt_ms s (hxs hs) s' hs'
  · intro s hs
    rcases List.mem_append.1 hs with hs | hs
    · exact h.ts_le s hs
    · exact h.is_le s (hxs hs)

/-- Some of what is current is archived, and everything else forgotten. -/
theorem close (h : Layered ts is ms L) (hxs : xs ⊆ ms) : Layered (ts ++ xs) [] [] L := by
  apply of_archive
  intro s hs
  rcases List.mem_append.1 hs with hs | hs
  · exact h.ts_le s hs
  · exact h.ms_le s (hxs hs)

end Layered

end KoishiDB
