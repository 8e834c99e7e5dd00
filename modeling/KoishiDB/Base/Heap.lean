import KoishiDB.Base.Exec
import Mathlib.Data.List.Forall2
import Mathlib.Data.List.Perm.Basic

/-!
# A heap and the owners of its blocks

`Heap β` are blocks that are allocated and freed by hand; reading or freeing a block that is not
there faults.  `Owned h ps` says that `ps` are the blocks of the heap that have not been freed,
each of them once.  So it is the law of ownership for a program whose pointers are `ps`: no block
has two owners, no owner points to a block that is gone, and no block is without an owner.

* `Owned.alloc`, `Owned.free` : allocating adds an owner, freeing through an owner takes it off.
* `forall₂_getElem?`, `forall₂_set` : two lists that are related element by element, such as the
  variables of a program and what they stand for.
-/

namespace KoishiDB

/-- Blocks by the number of their allocation; a block that has been freed is `none`. -/
structure Heap (β : Type) where
  blocks : List (Option β)
deriving Repr, DecidableEq

namespace Heap

variable {β : Type} {h h' : Heap β} {b : β} {p q : ℕ} {ps : List ℕ}

/-- Nothing has been allocated. -/
def empty : Heap β := ⟨[]⟩

/-- A new block and its address. -/
def alloc (h : Heap β) (b : β) : Heap β × ℕ := (⟨h.blocks ++ [some b]⟩, h.blocks.length)

/-- Read a block. -/
def read (h : Heap β) (p : ℕ) : Exec β :=
  match h.blocks[p]? with
  | some (some b) => .ok b
  | _ => .error .nullptr

/-- Free a block. -/
def free (h : Heap β) (p : ℕ) : Exec (Heap β) := do
  let _ ← h.read p
  return ⟨h.blocks.set p none⟩

/-- The block at `p` has been allocated and not freed. -/
def Live (h : Heap β) (p : ℕ) : Prop := ∃ b, h.read p = .ok b

theorem read_eq_ok : h.read p = .ok b ↔ h.blocks[p]? = some (some b) := by
  unfold read
  split <;> simp_all

theorem Live.lt (hp : h.Live p) : p < h.blocks.length := by
  obtain ⟨b, hb⟩ := hp
  exact (List.getElem?_eq_some_iff.1 (read_eq_ok.1 hb)).1

/-- A new block is where nothing was. -/
theorem read_alloc_new : (h.alloc b).1.read (h.alloc b).2 = .ok b :=
  read_eq_ok.2 (by simp [alloc])

theorem not_live_new : ¬ h.Live (h.alloc b).2 := fun hp => Nat.lt_irrefl _ hp.lt

/-- Allocating leaves the other blocks alone. -/
theorem read_alloc (hp : p ≠ (h.alloc b).2) : (h.alloc b).1.read p = h.read p := by
  have hget : (h.alloc b).1.blocks[p]? = h.blocks[p]? := by
    have hne : p ≠ h.blocks.length := hp
    simp only [alloc, List.getElem?_append]
    split
    · rfl
    · rw [List.getElem?_eq_none (by simp only [List.length_singleton]; omega),
        List.getElem?_eq_none (by omega)]
  rw [read, read, hget]

/-- Freeing a live block succeeds and leaves the other blocks alone. -/
theorem exists_free (hp : h.Live p) : ∃ h', h.free p = .ok h' ∧ ¬ h'.Live p ∧
    ∀ q, q ≠ p → h'.read q = h.read q := by
  obtain ⟨b, hb⟩ := hp
  refine ⟨⟨h.blocks.set p none⟩, by rw [free, hb]; rfl, ?_, ?_⟩
  · rintro ⟨c, hc⟩
    have hlt := Live.lt ⟨b, hb⟩
    simpa [hlt] using read_eq_ok.1 hc
  · intro q hq
    rw [read, read, List.getElem?_set_ne hq.symm]

/-- **Ownership.**  The blocks that have not been freed are `ps`, each of them once. -/
structure Owned (h : Heap β) (ps : List ℕ) : Prop where
  nodup : ps.Nodup
  live_iff : ∀ p, h.Live p ↔ p ∈ ps

theorem owned_empty : Owned (empty : Heap β) [] where
  nodup := .nil
  live_iff p := by
    constructor
    · intro hp
      exact absurd hp.lt (by simp [empty])
    · intro hp
      cases hp

theorem Owned.perm {ps' : List ℕ} (ho : Owned h ps) (hps : ps.Perm ps') : Owned h ps' :=
  ⟨hps.nodup_iff.1 ho.nodup, fun p => (ho.live_iff p).trans hps.mem_iff⟩

/-- Allocating adds an owner. -/
theorem Owned.alloc (ho : Owned h ps) (b : β) : Owned (h.alloc b).1 (ps ++ [(h.alloc b).2]) where
  nodup := by
    refine List.nodup_append.2 ⟨ho.nodup, by simp, ?_⟩
    intro p hp q hq
    rw [List.mem_singleton.1 hq]
    rintro rfl
    exact not_live_new ((ho.live_iff _).2 hp)
  live_iff p := by
    rw [List.mem_append, List.mem_singleton, ← ho.live_iff]
    by_cases hp : p = (h.alloc b).2
    · simp only [hp, or_true, iff_true]
      exact ⟨b, read_alloc_new⟩
    · simp only [hp, or_false, Live, read_alloc hp]

/-- Freeing through an owner takes it off, and every other block is as it was. -/
theorem Owned.free (ho : Owned h (ps ++ [p])) : ∃ h', h.free p = .ok h' ∧ Owned h' ps ∧
    ∀ q, q ≠ p → h'.read q = h.read q := by
  obtain ⟨h', hfree, hgone, hframe⟩ := exists_free ((ho.live_iff p).2 (by simp))
  obtain ⟨hnd, -, hne⟩ := List.nodup_append.1 ho.nodup
  refine ⟨h', hfree, ⟨hnd, fun q => ?_⟩, hframe⟩
  by_cases hq : q = p
  · subst hq
    simp only [hgone, false_iff]
    exact fun hmem => hne q hmem q (by simp) rfl
  · have hlive : h'.Live q ↔ h.Live q := by simp only [Live, hframe q hq]
    rw [hlive, ho.live_iff, List.mem_append, List.mem_singleton, or_iff_left hq]

end Heap

section SideBySide

variable {α γ : Type} {R : α → γ → Prop} {l : List α} {l' : List γ} {i : ℕ}

/-- Related lists have related elements. -/
theorem forall₂_getElem? {c : γ} (hl : List.Forall₂ R l l') (hi : l'[i]? = some c) :
    ∃ a, l[i]? = some a ∧ R a c := by
  induction hl generalizing i with
  | nil => cases hi
  | @cons a c' l l' hR _ ih =>
    cases i with
    | zero =>
      cases hi
      exact ⟨a, rfl, hR⟩
    | succ i => exact ih hi

/-- Replacing an element on both sides. -/
theorem forall₂_set {a : α} {c : γ} (hl : List.Forall₂ R l l') (hR : R a c) :
    List.Forall₂ R (l.set i a) (l'.set i c) := by
  induction hl generalizing i with
  | nil => exact .nil
  | cons hR' hl' ih =>
    cases i with
    | zero => exact .cons hR hl'
    | succ i => exact .cons hR' ih

/-- Replacing an element on one side. -/
theorem forall₂_set_left {a b : α} (hl : List.Forall₂ R l l') (hi : l[i]? = some b)
    (hR : ∀ c, R b c → R a c) : List.Forall₂ R (l.set i a) l' := by
  induction hl generalizing i with
  | nil => cases hi
  | cons hR' hl' ih =>
    cases i with
    | zero =>
      cases hi
      exact .cons (hR _ hR') hl'
    | succ i => exact .cons hR' (ih hi)

theorem forall₂_replicate {a : α} {c : γ} (hR : R a c) {n : ℕ} :
    List.Forall₂ R (List.replicate n a) (List.replicate n c) := by
  induction n with
  | zero => exact .nil
  | succ n ih => exact .cons hR ih

end SideBySide

end KoishiDB
