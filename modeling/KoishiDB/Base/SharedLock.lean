import Mathlib.Data.List.Induction
import Mathlib.Logic.Relation
import KoishiDB.Base.Machine

/-!
# Readers beside a machine

A machine has a lock that is held exclusively in some of its states (`busy`).  Readers take the same
lock in shared mode: any number of them can be inside while nobody holds it exclusively, and nobody
gets it exclusively while one of them is inside.  A reader does its work in steps; each step looks
at the part `view` of the state as it is then.

If the machine changes that part only under its lock, every reader sees one and the same state from
its first step to its last: `Shared.returned_linearizes` finds the state, after the reader was
called and before it returned, that gives its whole answer.  A reader that is called when another
one has returned finds its state later than the other one did (`Shared.Entered.after`).
-/

namespace KoishiDB

namespace Machine

variable {S L : Type} {step : S → L → Exec S}

/-- Induction along a run, with the labels performed so far. -/
theorem run_induction {P : List L → S → Prop} {s₀ : S} (h₀ : P [] s₀)
    (hstep : ∀ ls s l t, run step s₀ ls = .ok s → P ls s → step s l = .ok t → P (ls ++ [l]) t)
    {ls : List L} {s : S} (h : run step s₀ ls = .ok s) : P ls s := by
  induction ls using List.reverseRecOn generalizing s with
  | nil =>
    cases h
    exact h₀
  | append_singleton ls l ih =>
    obtain ⟨t, ht, hl⟩ := run_append_ok.1 h
    obtain ⟨u, hu, hnil⟩ := run_cons_ok.1 hl
    cases hnil
    exact hstep ls t l s ht (ih ht) hu

end Machine

/-- Where a reader is: at the lock, at some point of its work, or at its end. -/
inductive Reader (κ ρ α : Type) where
  | waiting (k : κ)
  | reading (r : ρ)
  | returned (a : α)
deriving Repr, DecidableEq

/-- The reader holds the lock. -/
def Reader.inside {κ ρ α : Type} : Reader κ ρ α → Bool
  | reading _ => true
  | _ => false

/-- A machine and its readers. -/
structure Shared (S κ ρ α : Type) where
  inner : S
  readers : List (Reader κ ρ α)

/-- What can happen next. -/
inductive SharedEvent (L κ : Type) where
  /-- The machine makes a step. -/
  | inner (l : L)
  /-- A new reader comes. -/
  | call (k : κ)
  /-- A reader goes on. -/
  | run (i : ℕ)

/-- The reader answers `a` if it sees `v` at every step. -/
inductive Answers {V ρ α : Type} (next : V → ρ → Exec (ρ ⊕ α)) (v : V) : ρ → α → Prop
  | done {r : ρ} {a : α} (h : next v r = .ok (.inr a)) : Answers next v r a
  | more {r r' : ρ} {a : α} (h : next v r = .ok (.inl r')) (ha : Answers next v r' a) :
      Answers next v r a

/-- A reader that has come to `r` answers what it answers from `r`. -/
theorem Answers.of_reaches {V ρ α : Type} {next : V → ρ → Exec (ρ ⊕ α)} {v : V} {r₀ r : ρ} {a : α}
    (h : Relation.ReflTransGen (fun r r' => next v r = .ok (.inl r')) r₀ r)
    (ha : Answers next v r a) : Answers next v r₀ a := by
  induction h using Relation.ReflTransGen.head_induction_on with
  | refl => exact ha
  | head hstep _ ih => exact .more hstep ih

namespace Shared

variable {S L V κ ρ α : Type}

section

variable (inner : S → L → Exec S) (busy : S → Bool) (view : S → V) (start : κ → ρ)
  (next : V → ρ → Exec (ρ ⊕ α))

/-- The machine with its readers. -/
def step (s : Shared S κ ρ α) : SharedEvent L κ → Exec (Shared S κ ρ α)
  | .inner l => do
    let t ← inner s.inner l
    -- the exclusive lock is not to be had while a reader is inside
    if !busy s.inner && busy t && s.readers.any Reader.inside then throw .blocked
    return { s with inner := t }
  | .call k => .ok { s with readers := s.readers ++ [.waiting k] }
  | .run i =>
    match s.readers[i]? with
    | some (.waiting k) =>
      if busy s.inner then .error .blocked
      else .ok { s with readers := s.readers.set i (.reading (start k)) }
    | some (.reading r) => do
      match ← next (view s.inner) r with
      | .inl r' => return { s with readers := s.readers.set i (.reading r') }
      | .inr a => return { s with readers := s.readers.set i (.returned a) }
    | _ => .error .blocked

/-- The steps, one constructor for each thing that can happen. -/
inductive Step (s : Shared S κ ρ α) : SharedEvent L κ → Shared S κ ρ α → Prop
  | inner {l : L} {t : S} (hl : inner s.inner l = .ok t)
      (hlock : busy s.inner = false → busy t = true → s.readers.any Reader.inside = false) :
      Step s (.inner l) { s with inner := t }
  | call {k : κ} : Step s (.call k) { s with readers := s.readers ++ [.waiting k] }
  | enter {i : ℕ} {k : κ} (hi : s.readers[i]? = some (.waiting k))
      (hfree : busy s.inner = false) :
      Step s (.run i) { s with readers := s.readers.set i (.reading (start k)) }
  | more {i : ℕ} {r r' : ρ} (hi : s.readers[i]? = some (.reading r))
      (hnext : next (view s.inner) r = .ok (.inl r')) :
      Step s (.run i) { s with readers := s.readers.set i (.reading r') }
  | done {i : ℕ} {r : ρ} {a : α} (hi : s.readers[i]? = some (.reading r))
      (hnext : next (view s.inner) r = .ok (.inr a)) :
      Step s (.run i) { s with readers := s.readers.set i (.returned a) }

end

variable {inner : S → L → Exec S} {busy : S → Bool} {view : S → V} {start : κ → ρ}
  {next : V → ρ → Exec (ρ ⊕ α)} {s s' : Shared S κ ρ α} {e : SharedEvent L κ}

/-- **What a step can do.** -/
theorem Step.of_step (h : step inner busy view start next s e = .ok s') :
    Step inner busy view start next s e s' := by
  cases e with
  | inner l =>
    obtain ⟨t, hl, h⟩ := Exec.bind_eq_ok.1 h
    dsimp only at h
    split_ifs at h with hlock
    · cases h
    · cases h
      refine .inner hl ?_
      intro hfree hbusy
      simpa [hfree, hbusy] using hlock
  | call r =>
    cases h
    exact .call
  | run i =>
    simp only [step] at h
    split at h
    · rename_i r hi
      split_ifs at h with hfree
      cases h
      exact .enter hi (by simpa using hfree)
    · rename_i r hi
      obtain ⟨x, hnext, h⟩ := Exec.bind_eq_ok.1 h
      cases x with
      | inl r' =>
        cases h
        exact .more hi hnext
      | inr a =>
        cases h
        exact .done hi hnext
    · cases h

/-- The machine itself makes a run of its own. -/
theorem reachable_inner {s₀ : S} {readers : List (Reader κ ρ α)} {es : List (SharedEvent L κ)}
    (h : Machine.run (step inner busy view start next) ⟨s₀, readers⟩ es = .ok s) :
    Machine.Reachable inner s₀ s.inner := by
  refine Machine.run_induction (P := fun _ s => Machine.Reachable inner s₀ s.inner) ⟨[], rfl⟩ ?_ h
  intro es s e t _ hs hstep
  cases Step.of_step hstep with
  | inner hl _ =>
    obtain ⟨ls, hls⟩ := hs
    exact ⟨ls ++ [_], Machine.run_append_ok.2 ⟨_, hls, Machine.run_cons_ok.2 ⟨_, hl, rfl⟩⟩⟩
  | _ => exact hs

section

variable (inner busy view start next)

/-- After `es₁` the reader `i` was at the lock, the lock was not held exclusively, and `s₁` was the
state; from what it saw then it came to fulfil `Q`. -/
def Entered (s₀ : Shared S κ ρ α) (es : List (SharedEvent L κ)) (i : ℕ) (Q : V → κ → Prop) : Prop :=
  ∃ es₁ es₂ s₁ k, es = es₁ ++ es₂ ∧ Machine.run (step inner busy view start next) s₀ es₁ = .ok s₁ ∧
    busy s₁.inner = false ∧ s₁.readers[i]? = some (.waiting k) ∧ Q (view s₁.inner) k

/-- What is known of a reader. -/
def Seen (s₀ : Shared S κ ρ α) (es : List (SharedEvent L κ)) (s : Shared S κ ρ α) (i : ℕ) :
    Reader κ ρ α → Prop
  | .waiting _ => True
  | .reading r => busy s.inner = false ∧ Entered inner busy view start next s₀ es i
      fun v k => view s.inner = v ∧
        Relation.ReflTransGen (fun r r' => next v r = .ok (.inl r')) (start k) r
  | .returned a =>
      Entered inner busy view start next s₀ es i fun v k => Answers next v (start k) a

end

variable {s₀ : Shared S κ ρ α} {es : List (SharedEvent L κ)} {i : ℕ} {Q Q' : V → κ → Prop}

theorem Entered.mono (h : Entered inner busy view start next s₀ es i Q) (hQ : ∀ v k, Q v k → Q' v k)
    (es' : List (SharedEvent L κ)) : Entered inner busy view start next s₀ (es ++ es') i Q' := by
  obtain ⟨es₁, es₂, s₁, k, rfl, hrun, hfree, hi, hq⟩ := h
  exact ⟨es₁, es₂ ++ es', s₁, k, List.append_assoc .., hrun, hfree, hi, hQ _ _ hq⟩

theorem length_readers_le (h : Machine.run (step inner busy view start next) s₀ es = .ok s) :
    s₀.readers.length ≤ s.readers.length := by
  refine Machine.run_induction (P := fun _ s => s₀.readers.length ≤ s.readers.length)
    (Nat.le_refl _) ?_ h
  intro es s e t _ hle hstep
  cases Step.of_step hstep with
  | call => exact Nat.le_trans hle (by simp)
  | _ => simpa using hle

/-- A reader that comes later enters later. -/
theorem Entered.after {es' : List (SharedEvent L κ)}
    (h : Entered inner busy view start next s₀ (es ++ es') i Q)
    (hrun : Machine.run (step inner busy view start next) s₀ es = .ok s)
    (hi : s.readers.length ≤ i) : Entered inner busy view start next s es' i Q := by
  obtain ⟨es₁, es₂, s₁, k, heq, hrun₁, hfree, hwait, hq⟩ := h
  obtain ⟨c, rfl, rfl⟩ | ⟨c, rfl, rfl⟩ := List.append_eq_append_iff.1 heq
  · obtain ⟨t, ht, hc⟩ := Machine.run_append_ok.1 hrun₁
    cases hrun.symm.trans ht
    exact ⟨c, es₂, s₁, k, rfl, hc, hfree, hwait, hq⟩
  · obtain ⟨t, ht, hc⟩ := Machine.run_append_ok.1 hrun
    cases hrun₁.symm.trans ht
    have hlt := (List.getElem?_eq_some_iff.1 hwait).1
    have hle := length_readers_le hc
    omega

/-- Only the machine's own steps, while nobody holds the lock, concern a reader that does not
move. -/
theorem Seen.frame {q : Reader κ ρ α} (h : Seen inner busy view start next s₀ es s i q)
    (e : SharedEvent L κ)
    (hfree : q.inside = true → busy s.inner = false →
      busy s'.inner = false ∧ view s'.inner = view s.inner) :
    Seen inner busy view start next s₀ (es ++ [e]) s' i q := by
  cases q with
  | waiting r => trivial
  | reading r =>
    obtain ⟨hbusy, hent⟩ := h
    obtain ⟨hbusy', hview⟩ := hfree rfl hbusy
    exact ⟨hbusy', hent.mono (fun v k ⟨hv, hreach⟩ => ⟨hview.trans hv, hreach⟩) _⟩
  | returned a =>
    have hent : Entered inner busy view start next s₀ es i fun v k =>
        Answers next v (start k) a := h
    exact hent.mono (fun _ _ ha => ha) _

/-- A reader that moves does not concern the others. -/
theorem Seen.set {j : ℕ} {q' : Reader κ ρ α}
    (hseen : ∀ k q, s.readers[k]? = some q → Seen inner busy view start next s₀ es s k q)
    (hq' : Seen inner busy view start next s₀ (es ++ [e])
      { s with readers := s.readers.set j q' } j q') :
    ∀ k q, (s.readers.set j q')[k]? = some q → Seen inner busy view start next s₀ (es ++ [e])
      { s with readers := s.readers.set j q' } k q := by
  intro k q hk
  rw [List.getElem?_set] at hk
  split_ifs at hk with heq hlt
  · cases hk
    subst heq
    exact hq'
  · exact (hseen k q hk).frame _ fun _ hfree => ⟨hfree, rfl⟩

/-- **A reader sees one state.**  The machine changes what readers see only while it holds the lock
exclusively.  Then every answer is the answer from one state in which the lock was free, after the
reader was called and before it returned. -/
theorem returned_linearizes {I : S → Prop} {m : S}
    (hinv : ∀ s l t, I s → inner s l = .ok t → I t)
    (hview : ∀ s l t, I s → inner s l = .ok t → busy s = false → busy t = false → view t = view s)
    (h₀ : I m) (h : Machine.run (step inner busy view start next) ⟨m, []⟩ es = .ok s) {a : α}
    (hi : s.readers[i]? = some (.returned a)) :
    Entered inner busy view start next ⟨m, []⟩ es i fun v k => Answers next v (start k) a := by
  suffices hall : I s.inner ∧ ∀ i q, s.readers[i]? = some q →
      Seen inner busy view start next ⟨m, []⟩ es s i q from hall.2 i _ hi
  refine Machine.run_induction (P := fun es s => I s.inner ∧ ∀ i q, s.readers[i]? = some q →
    Seen inner busy view start next ⟨m, []⟩ es s i q) ⟨h₀, by simp⟩ ?_ h
  rintro es s e t hrun ⟨hI, hseen⟩ hstep
  cases Step.of_step hstep with
  | @inner l u hl hlock =>
    refine ⟨hinv _ _ _ hI hl, fun j q hj => (hseen j q hj).frame _ ?_⟩
    intro hq hfree
    have hbusy : busy u = false := by
      cases hu : busy u with
      | false => rfl
      | true =>
        have hnone := List.any_eq_false.1 (hlock hfree hu) q (List.mem_of_getElem? hj)
        exact absurd hq hnone
    exact ⟨hbusy, hview _ _ _ hI hl hfree hbusy⟩
  | call =>
    refine ⟨hI, fun j q hj => ?_⟩
    rw [List.getElem?_append] at hj
    split_ifs at hj with hlt
    · exact (hseen j q hj).frame _ fun _ hfree => ⟨hfree, rfl⟩
    · have hq := List.mem_singleton.1 (List.mem_of_getElem? hj)
      subst hq
      trivial
  | @enter j r hj hfree =>
    exact ⟨hI, Seen.set hseen ⟨hfree, es, [_], s, r, rfl, hrun, hfree, hj, rfl, .refl⟩⟩
  | @more j r r' hj hnext =>
    obtain ⟨hfree, hent⟩ := hseen j _ hj
    refine ⟨hI, Seen.set hseen ⟨hfree, hent.mono ?_ _⟩⟩
    rintro v k ⟨rfl, hreach⟩
    exact ⟨rfl, hreach.tail hnext⟩
  | @done j r b hj hnext =>
    obtain ⟨-, hent⟩ := hseen j _ hj
    have hanswer : Entered inner busy view start next ⟨m, []⟩ (es ++ [.run j]) j
        fun v k => Answers next v (start k) b := by
      refine hent.mono ?_ _
      rintro v k ⟨rfl, hreach⟩
      exact .of_reaches hreach (.done hnext)
    exact ⟨hI, Seen.set hseen hanswer⟩

end Shared

end KoishiDB
