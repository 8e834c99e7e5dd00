import KoishiDB.Base.Exec

/-!
# Machines and their runs

A machine is a step function `S → L → Exec S`.  The label carries everything the machine does not
decide by itself (which thread moves, what it is asked to do, the contents of uninitialised
memory, the outcome of a system call), so a run is determined by its list of labels and can be
evaluated.  A step that faults ends the run: such a list of labels leads to no state.

* `Machine.run` performs a list of labels.
* `Machine.Along C s ls` says that every step of the run meets the condition `C`, which may look
  at the label and at the state *before* the step.
* `Machine.run_invariant` is the induction rule for runs all of whose steps meet a condition.
-/

namespace KoishiDB

namespace Machine

variable {S L : Type} (step : S → L → Exec S)

/-- Perform the labels `ls` one after the other, starting in `s`. -/
def run (s : S) : List L → Exec S
  | [] => .ok s
  | l :: ls => do
    let t ← step s l
    run t ls

/-- Every step of the run from `s` along `ls` meets `C` in the state it is taken from. -/
def Along (C : S → L → Prop) (s : S) : List L → Prop
  | [] => True
  | l :: ls => C s l ∧ ∀ t, step s l = .ok t → Along C t ls

/-- `s` is the last state of some run from `s₀`. -/
def Reachable (s₀ s : S) : Prop := ∃ ls, run step s₀ ls = .ok s

variable {step} {C D : S → L → Prop}

theorem run_cons_ok {s u : S} {l : L} {ls : List L} :
    run step s (l :: ls) = .ok u ↔ ∃ t, step s l = .ok t ∧ run step t ls = .ok u :=
  Exec.bind_eq_ok

theorem run_append {s : S} {ls ls' : List L} :
    run step s (ls ++ ls') = (run step s ls >>= fun t => run step t ls') := by
  induction ls generalizing s with
  | nil => rfl
  | cons l ls ih =>
    simp only [List.cons_append, run]
    cases step s l with
    | error e => rfl
    | ok t => exact ih

theorem run_append_ok {s u : S} {ls ls' : List L} :
    run step s (ls ++ ls') = .ok u ↔ ∃ t, run step s ls = .ok t ∧ run step t ls' = .ok u := by
  rw [run_append]; exact Exec.bind_eq_ok

theorem along_append {s : S} {ls ls' : List L} : Along step C s (ls ++ ls') ↔
    Along step C s ls ∧ ∀ t, run step s ls = .ok t → Along step C t ls' := by
  induction ls generalizing s with
  | nil => simp [Along, run]
  | cons l ls ih =>
    simp only [List.cons_append, Along, ih, run_cons_ok]
    grind

/-- Every step meets `C` in the state to which the labels before it lead. -/
theorem along_iff {s : S} {ls : List L} : Along step C s ls ↔
    ∀ ls₁ l, ls₁ ++ [l] <+: ls → ∀ t, run step s ls₁ = .ok t → C t l := by
  induction ls generalizing s with
  | nil => simp [Along]
  | cons l ls ih =>
    simp only [Along, ih]
    constructor
    · rintro ⟨hl, hls⟩ ls₁ l' hpre t ht
      cases ls₁ with
      | nil =>
        obtain ⟨rfl, -⟩ := List.cons_prefix_cons.1 hpre
        cases ht
        exact hl
      | cons l₁ ls₁ =>
        obtain ⟨rfl, hpre'⟩ := List.cons_prefix_cons.1 hpre
        obtain ⟨u, hu, ht⟩ := run_cons_ok.1 ht
        exact hls u hu ls₁ l' hpre' t ht
    · intro h
      refine ⟨h [] l (List.cons_prefix_cons.2 ⟨rfl, List.nil_prefix⟩) s rfl, ?_⟩
      intro u hu ls₁ l' hpre t ht
      exact h (l :: ls₁) l' (List.cons_prefix_cons.2 ⟨rfl, hpre⟩) t (run_cons_ok.2 ⟨u, hu, ht⟩)

/-- **The run rule.**  What holds at the start and is kept by every step that meets `C` holds at
the end of every run whose steps all meet `C`. -/
theorem run_invariant {I : S → Prop} (hstep : ∀ s l t, I s → C s l → step s l = .ok t → I t)
    {s u : S} {ls : List L} (h₀ : I s) (hC : Along step C s ls) (h : run step s ls = .ok u) :
    I u := by
  induction ls generalizing s with
  | nil => cases h; exact h₀
  | cons l ls ih =>
    obtain ⟨t, hst, hrun⟩ := run_cons_ok.1 h
    exact ih (hstep s l t h₀ hC.1 hst) (hC.2 t hst) hrun

theorem along_true (s : S) (ls : List L) : Along step (fun _ _ => True) s ls := by
  induction ls generalizing s with
  | nil => trivial
  | cons l ls ih => exact ⟨trivial, fun t _ => ih t⟩

/-- The run rule without a condition on the steps. -/
theorem Reachable.invariant {I : S → Prop} (hstep : ∀ s l t, I s → step s l = .ok t → I t)
    {s u : S} (h₀ : I s) (h : Reachable step s u) : I u := by
  obtain ⟨ls, h⟩ := h
  exact run_invariant (C := fun _ _ => True) (fun s l t hs _ => hstep s l t hs) h₀
    (along_true s ls) h

end Machine

end KoishiDB
