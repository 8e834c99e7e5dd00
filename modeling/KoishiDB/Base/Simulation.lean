import Mathlib.Data.List.Forall2
import KoishiDB.Base.Machine

/-!
# Forward simulation, and a store of two generations

`Machine.run_simulates` : if every step of a machine that meets a condition is matched by a step of
an abstract machine, then so is every run all of whose steps meet it.  `Machine.run_stutters` is the
same for machines some of whose steps the abstract one does not see.  `Machine.along_of_check` turns
a condition on the steps of one run into a test that can be evaluated.

`Generations` is an abstract store that remembers what was written in two generations.  Writing
adds to the young one, or starts a new one after the young one has become the old one; flushing
forgets the old one.  What has been forgotten and what is remembered are together what was written
since the store was created (`Generations.forgotten_append_remembered`), and nothing is forgotten
without a flush (`Generations.remembered_of_no_flush`).
-/

namespace KoishiDB

namespace Machine

variable {S T L M : Type} {step : S → L → Exec S} {abstract : T → M → Exec T}

/-- **Forward simulation** of whole runs. -/
theorem run_simulates {R : S → T → Prop} {C : S → L → Prop} {Matches : L → M → Prop}
    (hstep : ∀ s l s' t, R s t → C s l → step s l = .ok s' →
      ∃ m t', Matches l m ∧ abstract t m = .ok t' ∧ R s' t')
    {s s' : S} {t : T} {ls : List L} (h₀ : R s t) (hC : Along step C s ls)
    (h : run step s ls = .ok s') :
    ∃ ms t', List.Forall₂ Matches ls ms ∧ run abstract t ms = .ok t' ∧ R s' t' := by
  induction ls generalizing s t with
  | nil =>
    cases h
    exact ⟨[], t, .nil, rfl, h₀⟩
  | cons l ls ih =>
    obtain ⟨u, hu, hrun⟩ := run_cons_ok.1 h
    obtain ⟨m, t₁, hm, ht₁, hR⟩ := hstep s l u t h₀ hC.1 hu
    obtain ⟨ms, t', hms, ht', hR'⟩ := ih hR (hC.2 u hu) hrun
    exact ⟨m :: ms, t', .cons hm hms, run_cons_ok.2 ⟨t₁, ht₁, ht'⟩, hR'⟩

/-- **Forward simulation with steps that do nothing.**  Every step is matched by one step of the
abstract machine or by none; in the first case it adds an element to what has been observed, and
this matches the abstract label. -/
theorem run_stutters {X : Type} {obs : S → List X} {Matches : X → M → Prop} {R : S → T → Prop}
    {C : S → L → Prop} {D : T → M → Prop}
    (hstep : ∀ s l s' t, R s t → C s l → step s l = .ok s' → R s' t ∧ obs s' = obs s ∨
      ∃ x m t', D t m ∧ Matches x m ∧ abstract t m = .ok t' ∧ R s' t' ∧ obs s' = obs s ++ [x])
    {s s' : S} {t : T} {ls : List L} (h₀ : R s t) (hC : Along step C s ls)
    (h : run step s ls = .ok s') :
    ∃ xs ms t', obs s' = obs s ++ xs ∧ List.Forall₂ Matches xs ms ∧ Along abstract D t ms ∧
      run abstract t ms = .ok t' ∧ R s' t' := by
  induction ls generalizing s t with
  | nil =>
    cases h
    exact ⟨[], [], t, (List.append_nil _).symm, .nil, trivial, rfl, h₀⟩
  | cons l ls ih =>
    obtain ⟨u, hu, hrun⟩ := run_cons_ok.1 h
    rcases hstep s l u t h₀ hC.1 hu with ⟨hR, hobs⟩ | ⟨x, m, t₁, hD, hx, ht₁, hR, hobs⟩
    · rw [← hobs]
      exact ih hR (hC.2 u hu) hrun
    · obtain ⟨xs, ms, t', hobs', hms, halong, ht', hR'⟩ := ih hR (hC.2 u hu) hrun
      refine ⟨x :: xs, m :: ms, t', ?_, .cons hx hms, ⟨hD, ?_⟩,
        run_cons_ok.2 ⟨t₁, ht₁, ht'⟩, hR'⟩
      · rw [hobs', hobs, List.append_assoc, List.singleton_append]
      · intro t₂ ht₂
        cases ht₁.symm.trans ht₂
        exact halong

/-- Two matchings, one after the other. -/
theorem forall₂_trans {α β γ : Type} {P : α → β → Prop} {Q : β → γ → Prop} {R : α → γ → Prop}
    (hR : ∀ a b c, P a b → Q b c → R a c) {as : List α} {bs : List β} {cs : List γ}
    (hP : List.Forall₂ P as bs) (hQ : List.Forall₂ Q bs cs) : List.Forall₂ R as cs := by
  induction hP generalizing cs with
  | nil =>
    cases hQ
    exact .nil
  | cons ha _ ih =>
    cases hQ with
    | cons hb hQ => exact .cons (hR _ _ _ ha hb) (ih hQ)

section

variable (step)

/-- A test of every step of a run. -/
def check (D : S → L → Bool) (s : S) : List L → Bool
  | [] => true
  | l :: ls => D s l && match step s l with
    | .ok t => check D t ls
    | .error _ => true

end

/-- A condition that is implied by a test can be checked along a run. -/
theorem along_of_check {C : S → L → Prop} {D : S → L → Bool} {s : S} {ls : List L}
    (hD : ∀ s, ∀ l ∈ ls, D s l = true → C s l) (h : check step D s ls = true) :
    Along step C s ls := by
  induction ls generalizing s with
  | nil => trivial
  | cons l ls ih =>
    rw [check, Bool.and_eq_true] at h
    refine ⟨hD s l List.mem_cons_self h.1, ?_⟩
    intro t ht
    have hrest := h.2
    rw [ht] at hrest
    exact ih (fun s l hl => hD s l (List.mem_cons_of_mem _ hl)) hrest

end Machine

/-- What a store has been told since it was created. -/
structure Generations (α : Type) where
  forgotten : List α
  old : Option (List α)
  young : List α
deriving Repr, DecidableEq

/-- What can happen to the store. -/
inductive GenAction (α : Type) where
  | create
  /-- The young generation becomes the old one first if `rotates`. -/
  | write (as : List α) (rotates : Bool)
  | flush
  | destroy
deriving Repr, DecidableEq

namespace Generations

variable {α : Type}

/-- A store that has been told nothing. -/
def empty : Generations α := ⟨[], none, []⟩

/-- What the store remembers, oldest first. -/
def remembered (g : Generations α) : List α := g.old.getD [] ++ g.young

/-- Writing; there is no room for a third generation. -/
def write (g : Generations α) (as : List α) (rotates : Bool) : Exec (Generations α) :=
  if rotates then
    if g.old = none then .ok { g with old := some g.young, young := as } else .error .blocked
  else .ok { g with young := g.young ++ as }

/-- The old generation is forgotten. -/
def flush (g : Generations α) : Generations α :=
  { g with forgotten := g.forgotten ++ g.old.getD [], old := none }

/-- The machine; `none` is no store. -/
def step (t : Option (Generations α)) : GenAction α → Exec (Option (Generations α))
  | .create => if t.isSome then .error .blocked else .ok (some empty)
  | .write as rotates =>
    match t with
    | none => .error .nullptr
    | some g => (g.write as rotates).map some
  | .flush =>
    match t with
    | none => .error .nullptr
    | some g => .ok (some g.flush)
  | .destroy =>
    match t with
    | none => .error .nullptr
    | some _ => .ok none

/-- What has been written since the last creation, after one more action. -/
def told (as : List α) : GenAction α → List α
  | .create => []
  | .write as' _ => as ++ as'
  | .flush => as
  | .destroy => as

/-- What has been written since the last creation. -/
def session (ms : List (GenAction α)) : List α := ms.foldl told []

/-- Everything the store has been told. -/
def all (g : Generations α) : List α := g.forgotten ++ g.remembered

variable {g g' : Generations α} {t t' : Option (Generations α)} {ms : List (GenAction α)}

theorem all_write {as : List α} {rotates : Bool} (h : g.write as rotates = .ok g') :
    g'.all = g.all ++ as := by
  unfold write at h
  split_ifs at h with hrot hold
  · cases h
    simp [all, remembered, hold]
  · cases h
    simp [all, remembered]

theorem all_flush : g.flush.all = g.all := by
  simp [all, remembered, flush]

theorem all_of_run {a : List α} (ha : ∀ g, t = some g → g.all = a)
    (h : Machine.run step t ms = .ok t') : ∀ g, t' = some g → g.all = ms.foldl told a := by
  induction ms generalizing t a with
  | nil =>
    cases h
    exact ha
  | cons m ms ih =>
    obtain ⟨u, hu, hrun⟩ := Machine.run_cons_ok.1 h
    refine ih (a := told a m) ?_ hrun
    rintro g rfl
    cases m with
    | create =>
      simp only [step] at hu
      split_ifs at hu
      cases hu
      rfl
    | write as' rotates =>
      cases t with
      | none => cases hu
      | some g₀ =>
        obtain ⟨g₁, hg₁, heq⟩ := Exec.exists_of_map hu
        cases heq
        rw [all_write hg₁, ha g₀ rfl]
        rfl
    | flush =>
      cases t with
      | none => cases hu
      | some g₀ =>
        cases hu
        rw [all_flush, ha g₀ rfl]
        rfl
    | destroy =>
      cases t with
      | none => cases hu
      | some g₀ => cases hu

/-- What has been forgotten and what is remembered are together what was written since the
creation. -/
theorem forgotten_append_remembered (h : Machine.run step none ms = .ok (some g)) :
    g.forgotten ++ g.remembered = session ms :=
  all_of_run (t := none) (fun _ hg => by cases hg) h g rfl

/-- Without a flush nothing is forgotten. -/
theorem remembered_of_no_flush (h : Machine.run step none ms = .ok (some g))
    (hflush : .flush ∉ ms) : g.remembered = session ms := by
  have hnone : ∀ g', some g = some g' → g'.forgotten = [] := by
    refine Machine.run_invariant (C := fun _ m => m ≠ .flush)
      (I := fun t => ∀ g' : Generations α, t = some g' → g'.forgotten = []) ?_ ?_ ?_ h
    · rintro t m t' hI hm hstep g' rfl
      cases m with
      | create =>
        simp only [step] at hstep
        split_ifs at hstep
        cases hstep
        rfl
      | write as rotates =>
        cases t with
        | none => cases hstep
        | some g₀ =>
          obtain ⟨g₁, hg₁, heq⟩ := Exec.exists_of_map hstep
          cases heq
          unfold write at hg₁
          split_ifs at hg₁
          · cases hg₁
            exact hI g₀ rfl
          · cases hg₁
            exact hI g₀ rfl
      | flush => exact absurd rfl hm
      | destroy => cases t <;> cases hstep
    · exact fun _ hg => by cases hg
    · refine Machine.along_iff.2 fun ms₁ m hpre _ _ => ?_
      rintro rfl
      exact hflush (hpre.subset (by simp))
  rw [← forgotten_append_remembered h, hnone g rfl, List.nil_append]

end Generations

end KoishiDB
