import KoishiDB.Base.Order

/-!
# Versioned keys

A collection of entries, each with a key and a version number, ordered by key and, for equal
keys, by *decreasing* version.  In that order the first entry that is not in front of `(k, v)` is
the newest entry of `k` whose version is at most `v`, when there is one (`IsNewest.of_least`), and
otherwise it belongs to a larger key (`key_ne_of_least`).
-/

namespace KoishiDB

namespace Versioned

variable {ε κ : Type} [LinearOrder κ] (key : ε → κ) (ver : ε → ℕ)

/-- The place of a key and a version in the order. -/
def place (k : κ) (v : ℕ) : κ ×ₗ ℕᵒᵈ := toLex (k, OrderDual.toDual v)

/-- `e` is the newest entry of `k` in `es` among those of version at most `v`. -/
structure IsNewest (es : List ε) (k : κ) (v : ℕ) (e : ε) : Prop where
  mem : e ∈ es
  key_eq : key e = k
  ver_le : ver e ≤ v
  newest : ∀ e' ∈ es, key e' = k → ver e' ≤ v → ver e' ≤ ver e

theorem place_le {k k' : κ} {v v' : ℕ} :
    place k v ≤ place k' v' ↔ k < k' ∨ k = k' ∧ v' ≤ v := by
  simp [place, Prod.Lex.toLex_le_toLex]

theorem place_lt {k k' : κ} {v v' : ℕ} :
    place k v < place k' v' ↔ k < k' ∨ k = k' ∧ v' < v := by
  simp [place, Prod.Lex.toLex_lt_toLex]

omit [LinearOrder κ] in
theorem place_inj {k k' : κ} {v v' : ℕ} : place k v = place k' v' ↔ k = k' ∧ v = v' := by
  simp [place]

variable {key ver} {es : List ε} {k : κ} {v : ℕ} {e : ε}

omit [LinearOrder κ] in
/-- Two newest entries have the same version. -/
theorem IsNewest.ver_eq {e' : ε} (h : IsNewest key ver es k v e)
    (h' : IsNewest key ver es k v e') : ver e = ver e' :=
  le_antisymm (h'.newest e h.mem h.key_eq h.ver_le) (h.newest e' h'.mem h'.key_eq h'.ver_le)

/-- The least entry not in front of `(k, v)`, if it belongs to `k`, is the newest one. -/
theorem IsNewest.of_least (hmem : e ∈ es) (hle : place k v ≤ place (key e) (ver e))
    (hleast : ∀ e' ∈ es, place k v ≤ place (key e') (ver e') →
      place (key e) (ver e) ≤ place (key e') (ver e')) (hk : key e = k) :
    IsNewest key ver es k v e := by
  refine ⟨hmem, hk, ?_, ?_⟩
  · rcases place_le.1 hle with h | h
    · exact absurd hk h.ne'
    · exact h.2
  · intro e' he' hk' hv'
    rcases place_le.1 (hleast e' he' (place_le.2 (.inr ⟨hk'.symm, hv'⟩))) with h | h
    · exact absurd (hk.trans hk'.symm) h.ne
    · exact h.2

/-- If the least entry not in front of `(k, v)` belongs to another key, `k` has no entry of
version at most `v`. -/
theorem key_ne_of_least (hle : place k v ≤ place (key e) (ver e))
    (hleast : ∀ e' ∈ es, place k v ≤ place (key e') (ver e') →
      place (key e) (ver e) ≤ place (key e') (ver e')) (hk : key e ≠ k) :
    ∀ e' ∈ es, key e' = k → v < ver e' := by
  intro e' he' hk'
  by_contra hv
  rcases place_le.1 hle with h | h
  · rcases place_le.1 (hleast e' he' (place_le.2 (.inr ⟨hk'.symm, not_lt.1 hv⟩))) with h' | h'
    · exact absurd (hk' ▸ h') h.not_gt
    · exact hk (h'.1.trans hk')
  · exact hk h.1.symm

end Versioned

end KoishiDB
