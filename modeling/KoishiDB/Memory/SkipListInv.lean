import KoishiDB.Memory.SkipList
import Mathlib.Data.List.Induction
import Mathlib.Data.List.Perm.Basic
import Mathlib.Order.WithBot

/-!
# Correctness of the skip list

`Rep rank s order` is the invariant of the skip list: `order` lists all nodes once, by strictly
increasing rank, and the nodes linked on level `l` are those of `order` that are higher than `l`.
So the chains of all levels are determined by `order` and the heights alone, each is a sublist of
the one below it, and level 0 holds everything.

* `insert_spec` : `Insert` of a new key keeps the invariant, and neither faults nor diverges,
  whatever the height;
* `find_spec` : `FindFirstGreaterOrEqual` returns the first node of `order` that is not smaller;
* `keys_eq`, `chain_eq` : what the iterator and the links of a level enumerate.
-/

namespace KoishiDB

namespace SkipList

variable {K α : Type}

/-! ### Reading and writing links -/

/-- The height of a node (0 if it is not allocated). -/
def height (s : SkipList K) (i : ℕ) : ℕ := (s.nodes[i]?).elim 0 (·.next.length)

/-- The number of links at a pointer. -/
def ptrHeight (s : SkipList K) : Ptr → ℕ
  | .head => s.head.length
  | .node i => s.height i

/-- The rank of the key of a node (`⊥` if it is not allocated). -/
def rankOf (rank : K → α) (s : SkipList K) (i : ℕ) : WithBot α :=
  (s.nodes[i]?).elim ⊥ fun n => (rank n.key : WithBot α)

/-- The rank at a pointer; the dummy node is in front of everything. -/
def ptrRank (rank : K → α) (s : SkipList K) : Ptr → WithBot α
  | .head => ⊥
  | .node i => s.rankOf rank i

/-- Two skip lists with the same nodes that differ only in their links. -/
structure SameShape (s s' : SkipList K) : Prop where
  head_length : s'.head.length = s.head.length
  length : s'.nodes.length = s.nodes.length
  key : s'.nodes.map Node.key = s.nodes.map Node.key
  height : ∀ i, s'.height i = s.height i

namespace SameShape

variable {s s' s'' : SkipList K}

theorem refl (s : SkipList K) : SameShape s s := ⟨rfl, rfl, rfl, fun _ => rfl⟩

theorem trans (h : SameShape s s') (h' : SameShape s' s'') : SameShape s s'' :=
  ⟨h'.head_length.trans h.head_length, h'.length.trans h.length, h'.key.trans h.key,
    fun i => (h'.height i).trans (h.height i)⟩

theorem ptrHeight (h : SameShape s s') (p : Ptr) : s'.ptrHeight p = s.ptrHeight p := by
  cases p with
  | head => exact h.head_length
  | node i => exact h.height i

theorem map_key (h : SameShape s s') (i : ℕ) :
    (s'.nodes[i]?).map Node.key = (s.nodes[i]?).map Node.key := by
  rw [← List.getElem?_map, ← List.getElem?_map, h.key]

theorem map_eq (h : SameShape s s') :
    s'.nodes.map (fun n => (n.key, n.next.length)) =
      s.nodes.map fun n => (n.key, n.next.length) := by
  apply List.ext_getElem?
  intro i
  have hk := h.map_key i
  have hh := h.height i
  unfold SkipList.height at hh
  rw [List.getElem?_map, List.getElem?_map]
  cases h1 : s'.nodes[i]? <;> cases h2 : s.nodes[i]? <;> simp_all

theorem rankOf (h : SameShape s s') (rank : K → α) (i : ℕ) :
    s'.rankOf rank i = s.rankOf rank i := by
  have := h.map_key i
  unfold SkipList.rankOf
  cases h1 : s'.nodes[i]? <;> cases h2 : s.nodes[i]? <;> simp_all

theorem keyAt (h : SameShape s s') (i : ℕ) : s'.keyAt i = s.keyAt i := by
  have := h.map_key i
  unfold SkipList.keyAt
  cases h1 : s'.nodes[i]? <;> cases h2 : s.nodes[i]? <;> simp_all

end SameShape

variable {s s' : SkipList K}

theorem keyAt_eq_ok {i : ℕ} {k : K} :
    s.keyAt i = .ok k ↔ ∃ n, s.nodes[i]? = some n ∧ n.key = k := by
  unfold keyAt
  split <;> simp_all

/-- An allocated node has a key, and its rank is the rank of the key. -/
theorem exists_keyAt (rank : K → α) {i : ℕ} (h : i < s.nodes.length) :
    ∃ n ∈ s.nodes, s.nodes[i]? = some n ∧ s.keyAt i = .ok n.key ∧ s.rankOf rank i = rank n.key := by
  refine ⟨s.nodes[i], List.getElem_mem h, List.getElem?_eq_getElem h, ?_, ?_⟩
  · exact keyAt_eq_ok.2 ⟨_, List.getElem?_eq_getElem h, rfl⟩
  · simp [rankOf, h]

/-- Writing one link: it succeeds below the height, keeps the shape, and changes that link
only. -/
theorem setNNode_spec {p : Ptr} {n : ℕ} (h : n < s.ptrHeight p) (q : Option ℕ) :
    ∃ s', s.setNNode p n q = .ok s' ∧ SameShape s s' ∧ s'.getNNode p n = .ok q ∧
      ∀ p' n', (p' ≠ p ∨ n' ≠ n) → s'.getNNode p' n' = s.getNNode p' n' := by
  cases p with
  | head =>
    have h : n < s.head.length := h
    refine ⟨{ s with head := s.head.set n q }, ?_, ⟨by simp, rfl, rfl, fun _ => rfl⟩, ?_, ?_⟩
    · simp [setNNode, links, setLinks, Exec.require_of h]
    · simp [getNNode, links, h]
    · intro p' n' hne
      cases p' with
      | node i => rfl
      | head =>
        have : n ≠ n' := fun e => by simp [e] at hne
        simp [getNNode, links, List.getElem?_set_ne this]
  | node i =>
    obtain ⟨nd, hnd, hlen⟩ : ∃ nd, s.nodes[i]? = some nd ∧ n < nd.next.length := by
      simp only [ptrHeight, height] at h
      cases hi : s.nodes[i]? with
      | none => simp [hi] at h
      | some nd => exact ⟨nd, rfl, by simpa [hi] using h⟩
    -- Of the nodes only the `i`-th changes, and of it only the links: keys and heights stay.
    refine ⟨{ s with nodes := s.nodes.modify i fun m => { m with next := nd.next.set n q } }, ?_,
      ⟨rfl, by simp, ?_, ?_⟩, ?_, ?_⟩
    · simp [setNNode, links, setLinks, hnd, Exec.require_of hlen]
    · apply List.ext_getElem?
      intro j
      simp only [List.getElem?_map, List.getElem?_modify]
      cases s.nodes[j]? <;> simp
      split <;> rfl
    · intro j
      simp only [height, List.getElem?_modify]
      by_cases hij : i = j
      · subst hij; simp [hnd]
      · simp [hij]
    · simp [getNNode, links, hnd, hlen]
    · intro p' n' hne
      cases p' with
      | head => rfl
      | node j =>
        simp only [getNNode, links, List.getElem?_modify]
        by_cases hij : i = j
        · subst hij
          have : n ≠ n' := fun e => by simp [e] at hne
          simp [hnd, List.getElem?_set_ne this]
        · simp [hij]

/-- Writing a link keeps the keys. -/
theorem setNNode_keys {p : Ptr} {n : ℕ} {q : Option ℕ} (h : s.setNNode p n q = .ok s') :
    s'.nodes.map Node.key = s.nodes.map Node.key := by
  obtain ⟨next, -, h⟩ := Exec.bind_eq_ok.1 h
  obtain ⟨_, -, h⟩ := Exec.bind_eq_ok.1 h
  cases h
  cases p with
  | head => rfl
  | node i =>
    apply List.ext_getElem?
    intro j
    simp only [setLinks, List.getElem?_map, List.getElem?_modify]
    cases s.nodes[j]? <;> simp
    split <;> rfl

theorem insertLoop_keys {cmp : K → K → Exec ℤ} {key : K} {newNode fuel level : ℕ} {ptr : Ptr}
    (h : insertLoop cmp key newNode fuel s ptr level = .ok s') :
    s'.nodes.map Node.key = s.nodes.map Node.key := by
  induction fuel generalizing s ptr level with
  | zero => cases h
  | succ fuel ih =>
    cases level with
    | zero => cases h; rfl
    | succ level =>
      obtain ⟨nextPtr, -, h⟩ := Exec.bind_eq_ok.1 h
      obtain ⟨smaller, -, h⟩ := Exec.bind_eq_ok.1 h
      cases smaller with
      | some j => exact ih h
      | none =>
        obtain ⟨s₁, h₁, h⟩ := Exec.bind_eq_ok.1 h
        obtain ⟨s₂, h₂, h⟩ := Exec.bind_eq_ok.1 h
        rw [ih h, setNNode_keys h₂, setNNode_keys h₁]

/-- Whatever the comparator says, `Insert` adds one node. -/
theorem insert_keys {cmp : K → K → Exec ℤ} {key : K} {h : ℕ} (hi : s.insert cmp key h = .ok s') :
    s'.nodes.map Node.key = s.nodes.map Node.key ++ [key] := by
  rw [insertLoop_keys hi, List.map_append, List.map_singleton]

/-! ### Allocation -/

section Alloc

variable (s) (key : K) (h : ℕ)

/-- The list with a new node that is not linked yet. -/
def alloc : SkipList K := { s with nodes := s.nodes ++ [⟨key, List.replicate h none⟩] }

theorem alloc_height_new : (s.alloc key h).height s.nodes.length = h := by
  simp [alloc, height]

theorem alloc_rankOf_new (rank : K → α) :
    (s.alloc key h).rankOf rank s.nodes.length = rank key := by
  simp [alloc, rankOf]

variable {s}

theorem alloc_height {i : ℕ} (hi : i < s.nodes.length) : (s.alloc key h).height i = s.height i := by
  simp [alloc, height, List.getElem?_append_left hi]

theorem alloc_rankOf (rank : K → α) {i : ℕ} (hi : i < s.nodes.length) :
    (s.alloc key h).rankOf rank i = s.rankOf rank i := by
  simp [alloc, rankOf, List.getElem?_append_left hi]

theorem alloc_getNNode {i : ℕ} (hi : i < s.nodes.length) (l : ℕ) :
    (s.alloc key h).getNNode (.node i) l = s.getNNode (.node i) l := by
  simp [alloc, getNNode, links, List.getElem?_append_left hi]

end Alloc

/-! ### Chains -/

/-- On level `l` the nodes after `p` are exactly `is`. -/
def Linked (s : SkipList K) (l : ℕ) : Ptr → List ℕ → Prop
  | p, [] => s.getNNode p l = .ok none
  | p, i :: is => s.getNNode p l = .ok (some i) ∧ Linked s l (.node i) is

/-- On level `l` the nodes after `p` start with `is`. -/
def Seg (s : SkipList K) (l : ℕ) : Ptr → List ℕ → Prop
  | _, [] => True
  | p, i :: is => s.getNNode p l = .ok (some i) ∧ Seg s l (.node i) is

/-- The pointer at the end of a segment. -/
def lastPtr : Ptr → List ℕ → Ptr
  | p, [] => p
  | _, i :: is => lastPtr (.node i) is

theorem lastPtr_append (p : Ptr) (a : List ℕ) (i : ℕ) : lastPtr p (a ++ [i]) = .node i := by
  induction a generalizing p with
  | nil => rfl
  | cons j a ih => exact ih _

theorem lastPtr_mem {p : Ptr} {a : List ℕ} (h : a ≠ []) : ∃ i ∈ a, lastPtr p a = .node i := by
  induction a generalizing p with
  | nil => exact absurd rfl h
  | cons j a ih =>
    rcases eq_or_ne a [] with rfl | ha
    · exact ⟨j, by simp, rfl⟩
    · obtain ⟨i, hi, he⟩ := ih (p := .node j) ha
      exact ⟨i, List.mem_cons_of_mem _ hi, he⟩

theorem linked_append {l : ℕ} {p : Ptr} {a b : List ℕ} :
    s.Linked l p (a ++ b) ↔ s.Seg l p a ∧ s.Linked l (lastPtr p a) b := by
  induction a generalizing p with
  | nil => simp [Seg, lastPtr]
  | cons i a ih => simp only [List.cons_append, Linked, Seg, lastPtr, ih, and_assoc]

/-- Where the chain starts there is a link, whether or not another node follows. -/
theorem Linked.exists_getNNode {s : SkipList K} {l : ℕ} {p : Ptr} {is : List ℕ}
    (h : Linked s l p is) : ∃ q, s.getNNode p l = .ok q := by
  cases is with
  | nil => exact ⟨none, h⟩
  | cons j is => exact ⟨some j, h.1⟩

/-- A chain depends on the links of its own nodes only. -/
theorem Linked.congr {l : ℕ} {p : Ptr} {a : List ℕ} (h : s.Linked l p a)
    (hp : s'.getNNode p l = s.getNNode p l)
    (ha : ∀ i ∈ a, s'.getNNode (.node i) l = s.getNNode (.node i) l) : s'.Linked l p a := by
  induction a generalizing p with
  | nil => exact hp.trans h
  | cons i a ih =>
    exact ⟨hp.trans h.1, ih h.2 (ha i (by simp)) fun j hj => ha j (List.mem_cons_of_mem _ hj)⟩

/-- A segment does not depend on the link at its end. -/
theorem Seg.congr {l : ℕ} {p : Ptr} {a : List ℕ} (h : s.Seg l p a) (hnd : a.Nodup)
    (hpa : ∀ i ∈ a, p ≠ .node i)
    (hr : ∀ q, q ≠ lastPtr p a → (q = p ∨ ∃ i ∈ a, q = .node i) →
      s'.getNNode q l = s.getNNode q l) : s'.Seg l p a := by
  induction a generalizing p with
  | nil => trivial
  | cons i a ih =>
    have hlast : p ≠ lastPtr p (i :: a) := by
      obtain ⟨j, hj, he⟩ := lastPtr_mem (p := p) (List.cons_ne_nil i a)
      rw [he]; exact hpa j hj
    refine ⟨(hr p hlast (.inl rfl)).trans h.1, ih h.2 (List.nodup_cons.1 hnd).2 ?_ ?_⟩
    · intro j hj hij
      cases hij
      exact (List.nodup_cons.1 hnd).1 hj
    · intro q hq hmem
      refine hr q hq (.inr ?_)
      rcases hmem with rfl | ⟨j, hj, rfl⟩
      · exact ⟨i, by simp, rfl⟩
      · exact ⟨j, List.mem_cons_of_mem _ hj, rfl⟩

/-! ### The invariant -/

variable [LinearOrder α]

/-- **The invariant of the skip list.** -/
structure Rep (rank : K → α) (s : SkipList K) (order : List ℕ) : Prop where
  head_length : s.head.length = kSkipListNodeMaxLevel
  perm : order.Perm (List.range s.nodes.length)
  sorted : order.Pairwise fun i j => s.rankOf rank i < s.rankOf rank j
  height_pos : ∀ i < s.nodes.length, 0 < s.height i
  height_le : ∀ i < s.nodes.length, s.height i ≤ kSkipListNodeMaxLevel
  linked : ∀ l < kSkipListNodeMaxLevel, s.Linked l .head (order.filter fun i => l < s.height i)

theorem rep_empty (rank : K → α) : Rep rank (empty : SkipList K) [] where
  head_length := by simp [empty]
  perm := by simp [empty]
  sorted := .nil
  height_pos := by simp [empty]
  height_le := by simp [empty]
  linked l hl := by simp [Linked, getNNode, links, empty, hl]

namespace Rep

variable {rank : K → α} {order : List ℕ} (hr : Rep rank s order)
include hr

theorem mem_iff {i : ℕ} : i ∈ order ↔ i < s.nodes.length := by
  rw [hr.perm.mem_iff, List.mem_range]

theorem nodup : order.Nodup := hr.perm.nodup_iff.2 List.nodup_range

theorem filter_zero : (order.filter fun i => 0 < s.height i) = order :=
  List.filter_eq_self.2 fun i hi => by simpa using hr.height_pos i (hr.mem_iff.1 hi)

end Rep

theorem length_filter_lt {β : Type} {p q : β → Bool} {l : List β} {x : β} (hx : x ∈ l)
    (hqx : q x = true) (hpx : p x = false) (hpq : ∀ y ∈ l, p y = true → q y = true) :
    (l.filter p).length < (l.filter q).length := by
  have he : l.filter p = (l.filter q).filter p := by
    rw [List.filter_filter]
    apply List.filter_congr
    intro y hy
    cases hpy : p y
    · simp
    · simp [hpq y hy hpy]
  rw [he]
  exact List.length_filter_lt_length_iff_exists.2 ⟨x, List.mem_filter.2 ⟨hx, hqx⟩, by simp [hpx]⟩

/-! ### The descent -/

/-- The descent for a key of rank `k` has come to `ptr`: the dummy node, or a node in front of the
key that is linked on all levels below `level`. -/
def Reached (rank : K → α) (s : SkipList K) (order : List ℕ) (k : α) (level : ℕ) (ptr : Ptr) :
    Prop :=
  ptr = .head ∨ ∃ p ∈ order, ptr = .node p ∧ s.rankOf rank p < k ∧ level ≤ s.height p

/-- The number of nodes behind a pointer, which bounds the rest of the descent. -/
def ahead (rank : K → α) (s : SkipList K) (order : List ℕ) (ptr : Ptr) : ℕ :=
  (order.filter fun i => s.ptrRank rank ptr < s.rankOf rank i).length

/-- The chain of level `l`, cut behind `ptr`: everything up to there is in front of the key. -/
structure Cut (rank : K → α) (s : SkipList K) (order : List ℕ) (k : α) (l : ℕ) (ptr : Ptr)
    (a b : List ℕ) : Prop where
  chain : (order.filter fun i => l < s.height i) = a ++ b
  last : lastPtr .head a = ptr
  smaller : ∀ i ∈ a, s.rankOf rank i < k

section Descent

variable {rank : K → α} {order : List ℕ} {k : α} {level l : ℕ} {ptr : Ptr} {a b : List ℕ} {j : ℕ}

theorem Reached.mono (h : Reached rank s order k level ptr) (hle : l ≤ level) :
    Reached rank s order k l ptr := by
  rcases h with rfl | ⟨p, hp, rfl, hpk, hpl⟩
  · exact .inl rfl
  · exact .inr ⟨p, hp, rfl, hpk, hle.trans hpl⟩

theorem ahead_le (rank : K → α) (s : SkipList K) (order : List ℕ) (ptr : Ptr) :
    ahead rank s order ptr ≤ order.length :=
  List.length_filter_le _ _

theorem Reached.exists_cut (h : Reached rank s order k (l + 1) ptr)
    (hs : order.Pairwise fun i j => s.rankOf rank i < s.rankOf rank j) :
    ∃ a b, Cut rank s order k l ptr a b := by
  rcases h with rfl | ⟨p, hp, rfl, hpk, hpl⟩
  · exact ⟨[], _, rfl, rfl, by simp⟩
  · have hin : p ∈ order.filter fun i => l < s.height i :=
      List.mem_filter.2 ⟨hp, decide_eq_true hpl⟩
    obtain ⟨a, b, hab⟩ := List.append_of_mem hin
    refine ⟨a ++ [p], b, by rw [hab]; simp, lastPtr_append _ _ _, ?_⟩
    intro i hi
    rcases List.mem_append.1 hi with hi | hi
    · have hsort := hs.filter fun i => decide (l < s.height i)
      rw [hab, List.pairwise_append] at hsort
      exact (hsort.2.2 i hi p (by simp)).trans hpk
    · rw [List.mem_singleton.1 hi]
      exact hpk

namespace Cut

theorem mem (hc : Cut rank s order k l ptr a b) {i : ℕ} (hi : i ∈ a ++ b) :
    i ∈ order ∧ l < s.height i := by
  rw [← hc.chain, List.mem_filter] at hi
  simpa using hi

/-- In any list of that shape, the chain continues behind the pointer. -/
theorem linked (hc : Cut rank s order k l ptr a b)
    (h : s'.Linked l .head (order.filter fun i => l < s.height i)) : s'.Linked l ptr b := by
  rw [hc.chain] at h
  exact hc.last ▸ (linked_append.1 h).2

theorem pairwise (hc : Cut rank s order k l ptr a b)
    (hs : order.Pairwise fun i j => s.rankOf rank i < s.rankOf rank j) :
    (a ++ b).Pairwise fun i j => s.rankOf rank i < s.rankOf rank j :=
  hc.chain ▸ hs.filter _

theorem ptrRank_lt (hc : Cut rank s order k l ptr a (j :: b))
    (hs : order.Pairwise fun i j => s.rankOf rank i < s.rankOf rank j)
    (hbot : s.rankOf rank j ≠ ⊥) : s.ptrRank rank ptr < s.rankOf rank j := by
  rcases eq_or_ne a [] with rfl | hne
  · obtain rfl : Ptr.head = ptr := hc.last
    exact bot_lt_iff_ne_bot.2 hbot
  · obtain ⟨i, hi, he⟩ := lastPtr_mem (p := .head) hne
    rw [← hc.last, he]
    exact (List.pairwise_append.1 (hc.pairwise hs)).2.2 i hi j (by simp)

/-- **Moving on** to the next node of the level, which is in front of the key: fewer nodes are
left. -/
theorem move (hc : Cut rank s order k l ptr a (j :: b))
    (hs : order.Pairwise fun i j => s.rankOf rank i < s.rankOf rank j)
    (hbot : s.rankOf rank j ≠ ⊥) (hjk : s.rankOf rank j < k) :
    Reached rank s order k (l + 1) (.node j) ∧
      ahead rank s order (.node j) < ahead rank s order ptr := by
  obtain ⟨hj, hl⟩ := hc.mem (i := j) (by simp)
  have hlt := hc.ptrRank_lt hs hbot
  refine ⟨.inr ⟨j, hj, rfl, hjk, hl⟩, length_filter_lt hj (decide_eq_true hlt) ?_ ?_⟩
  · simp [ptrRank]
  · intro y _ hy
    exact decide_eq_true (hlt.trans (of_decide_eq_true hy))

/-- When the next node is not in front of the key, nothing behind it is. -/
theorem not_smaller (hc : Cut rank s order k l ptr a (j :: b))
    (hs : order.Pairwise fun i j => s.rankOf rank i < s.rankOf rank j)
    (hj : ¬ s.rankOf rank j < k) : ∀ i ∈ j :: b, ¬ s.rankOf rank i < k := by
  intro i hi
  rcases List.mem_cons.1 hi with rfl | hi
  · exact hj
  · have hlt := (List.pairwise_cons.1 (List.pairwise_append.1 (hc.pairwise hs)).2.1).1 i hi
    exact fun hik => hj (hlt.trans hik)

end Cut

/-- The comparison of a node with the key. -/
theorem exists_compare {cmp : K → K → Exec ℤ} {D : K → Prop} {key : K} (hcmp : Decides cmp D rank)
    (hDn : ∀ n ∈ s.nodes, D n.key) (hDk : D key) (hj : j < s.nodes.length) :
    ∃ n z, s.nodes[j]? = some n ∧ s.keyAt j = .ok n.key ∧ cmp n.key key = .ok z ∧
      (z < 0 ↔ s.rankOf rank j < rank key) ∧ (z = 0 ↔ s.rankOf rank j = rank key) ∧
      s.rankOf rank j ≠ ⊥ := by
  obtain ⟨n, hn, hget, hkey, hrank⟩ := exists_keyAt (s := s) rank hj
  obtain ⟨z, hz, hneg, hzero⟩ := hcmp.cmp_ok (hDn n hn) hDk
  refine ⟨n, z, hget, hkey, hz, ?_, ?_, ?_⟩
  · rw [hneg, hrank, WithBot.coe_lt_coe]
  · rw [hzero, hrank, WithBot.coe_inj]
  · rw [hrank]
    exact WithBot.coe_ne_bot

end Descent

/-- A sorted list that is cut where the smaller elements end is cut by the comparison. -/
theorem filter_cut {a b : List ℕ} {rk : ℕ → WithBot α} {k : WithBot α}
    (ha : ∀ i ∈ a, rk i < k) (hb : ∀ i ∈ b, ¬ rk i < k) :
    (a ++ b).filter (fun i => rk i < k) = a ∧ (a ++ b).filter (fun i => ¬ rk i < k) = b := by
  have h1 : a.filter (fun i => rk i < k) = a := List.filter_eq_self.2 (by simpa using ha)
  have h2 : b.filter (fun i => rk i < k) = [] := List.filter_eq_nil_iff.2 (by simpa using hb)
  have h3 : a.filter (fun i => ¬ rk i < k) = [] := List.filter_eq_nil_iff.2 (by simpa using ha)
  have h4 : b.filter (fun i => ¬ rk i < k) = b := List.filter_eq_self.2 (by simpa using hb)
  rw [List.filter_append, List.filter_append, h1, h2, h3, h4]
  simp

/-! ### Insertion -/

/-- The chain `c` with the new node `N` of rank `k` in its place. -/
def withNew (rk : ℕ → WithBot α) (k : WithBot α) (N : ℕ) (c : List ℕ) : List ℕ :=
  c.filter (fun i => rk i < k) ++ N :: c.filter (fun i => ¬ rk i < k)

/-- Linking the new node in on one level, at the pointer the descent has reached. -/
theorem link_spec {N l : ℕ} {ptr : Ptr} {a b : List ℕ} {nextPtr : Option ℕ}
    (hL : s.Linked l .head (a ++ b)) (hptr : lastPtr .head a = ptr) (hnd : (a ++ b).Nodup)
    (hN : N ∉ a ++ b) (hh : l < s.ptrHeight ptr) (hhN : l < s.height N)
    (hnext : s.getNNode ptr l = .ok nextPtr) :
    ∃ s₁ s₂, s.setNNode ptr l (some N) = .ok s₁ ∧ s₁.setNNode (.node N) l nextPtr = .ok s₂ ∧
      SameShape s s₂ ∧ s₂.Linked l .head (a ++ N :: b) ∧
      ∀ p n, n ≠ l → s₂.getNNode p n = s.getNNode p n := by
  obtain ⟨s₁, h₁, hsh₁, hget₁, hfr₁⟩ := setNNode_spec hh (some N)
  have hhN₁ : l < s₁.ptrHeight (.node N) := by rw [hsh₁.ptrHeight]; exact hhN
  obtain ⟨s₂, h₂, hsh₂, hget₂, hfr₂⟩ := setNNode_spec hhN₁ nextPtr
  have hptrN : ptr ≠ .node N := by
    rintro rfl
    rcases eq_or_ne a [] with rfl | ha
    · cases hptr
    · obtain ⟨i, hi, he⟩ := lastPtr_mem (p := .head) ha
      rw [hptr] at he; cases he
      exact hN (List.mem_append_left _ hi)
  -- a link on this level other than those of `ptr` and `N` is as before
  have hframe : ∀ q, q ≠ ptr → q ≠ .node N → s₂.getNNode q l = s.getNNode q l := fun q hq hq' => by
    rw [hfr₂ q l (.inl hq'), hfr₁ q l (.inl hq)]
  obtain ⟨hseg, hb⟩ := linked_append.1 hL
  rw [hptr] at hb
  have hnda := (List.nodup_append.1 hnd).1
  have hndb := (List.nodup_append.1 hnd).2.1
  have hab := (List.nodup_append.1 hnd).2.2
  have hbne : ∀ i ∈ b, Ptr.node i ≠ ptr := by
    rintro i hi rfl
    rcases eq_or_ne a [] with rfl | ha
    · cases hptr
    · obtain ⟨j, hj, he⟩ := lastPtr_mem (p := .head) ha
      rw [hptr] at he; cases he
      exact hab i hj i hi rfl
  have hbN : ∀ i ∈ b, Ptr.node i ≠ .node N := fun i hi e => by
    cases e; exact hN (List.mem_append_right _ hi)
  refine ⟨s₁, s₂, h₁, h₂, hsh₁.trans hsh₂, linked_append.2 ⟨?_, ?_⟩, ?_⟩
  · refine hseg.congr hnda (by simp) fun q hq hmem => hframe q (by rwa [hptr] at hq) ?_
    rintro rfl
    rcases hmem with h | ⟨i, hi, h⟩
    · cases h
    · cases h; exact hN (List.mem_append_left _ hi)
  · rw [hptr]
    refine ⟨by rw [hfr₂ ptr l (.inl hptrN)]; exact hget₁, ?_⟩
    -- the new node continues with what followed `ptr`
    cases b with
    | nil =>
      have : nextPtr = none := by simpa [hnext, Linked] using hb
      rw [this] at hget₂
      exact hget₂
    | cons j b =>
      have : nextPtr = some j := by simpa [hnext] using hb.1
      rw [this] at hget₂
      refine ⟨hget₂, hb.2.congr (hframe _ (hbne j (by simp)) (hbN j (by simp))) ?_⟩
      intro i hi
      exact hframe _ (hbne i (List.mem_cons_of_mem _ hi)) (hbN i (List.mem_cons_of_mem _ hi))
  · intro p n hn
    rw [hfr₂ p n (.inr hn), hfr₁ p n (.inr hn)]

section Insert

variable {cmp : K → K → Exec ℤ} {D : K → Prop} {rank : K → α} {key : K} {s₁ : SkipList K}
  {order : List ℕ} {N h : ℕ}

/-- `s₁` is a list with a new node `N` of height `h` that is not linked yet; `order` are the other
nodes. -/
structure Allocated (rank : K → α) (s₁ : SkipList K) (order : List ℕ) (N h : ℕ) : Prop where
  order_lt : ∀ i ∈ order, i < N
  length : s₁.nodes.length = N + 1
  nodup : order.Nodup
  sorted : order.Pairwise fun i j => s₁.rankOf rank i < s₁.rankOf rank j
  head_length : s₁.head.length = kSkipListNodeMaxLevel
  height_new : s₁.height N = h
  height_le : h ≤ kSkipListNodeMaxLevel

/-- The loop of `Insert` at a level: above it the new node is linked, on the levels below and on
those the new node does not reach nothing has changed, and `ptr` is linked on all levels still to
do. -/
structure Inserting (rank : K → α) (s₁ : SkipList K) (order : List ℕ) (N h : ℕ) (k : α)
    (level : ℕ) (ptr : Ptr) (s : SkipList K) : Prop where
  shape : SameShape s₁ s
  level_le : level ≤ h
  old : ∀ l < kSkipListNodeMaxLevel, l < level ∨ h ≤ l →
    s.Linked l .head (order.filter fun i => l < s₁.height i)
  new : ∀ l, level ≤ l → l < h →
    s.Linked l .head (withNew (s₁.rankOf rank) k N (order.filter fun i => l < s₁.height i))
  reached : Reached rank s₁ order k level ptr

theorem Inserting.lt_ptrHeight {l : ℕ} {ptr : Ptr} {k : α} (hal : Allocated rank s₁ order N h)
    (hi : Inserting rank s₁ order N h k (l + 1) ptr s) : l < s.ptrHeight ptr := by
  rw [hi.shape.ptrHeight]
  rcases hi.reached with rfl | ⟨p, -, rfl, -, hpl⟩
  · have h1 := hi.level_le
    have h2 := hal.height_le
    change l < s₁.head.length
    rw [hal.head_length]
    omega
  · exact hpl

/-- **One level of `Insert`**: the new node is linked behind `ptr`, once nothing behind it on the
level is in front of the key. -/
theorem Inserting.link {l : ℕ} {ptr : Ptr} {a b : List ℕ} {k : α} {nextPtr : Option ℕ}
    (hal : Allocated rank s₁ order N h) (hi : Inserting rank s₁ order N h k (l + 1) ptr s)
    (hc : Cut rank s₁ order k l ptr a b) (hb : ∀ i ∈ b, ¬ s₁.rankOf rank i < k)
    (hnext : s.getNNode ptr l = .ok nextPtr) :
    ∃ sa sb, s.setNNode ptr l (some N) = .ok sa ∧ sa.setNNode (.node N) l nextPtr = .ok sb ∧
      Inserting rank s₁ order N h k l ptr sb := by
  have hlh : l < h := hi.level_le
  have hL := hi.old l (hlh.trans_le hal.height_le) (.inl (Nat.lt_succ_self l))
  have hnd := hal.nodup.filter fun i => decide (l < s₁.height i)
  rw [hc.chain] at hL hnd
  have hN : N ∉ a ++ b := fun hN => (hal.order_lt N (hc.mem hN).1).false
  have hhN : l < s.height N := by
    rw [hi.shape.height, hal.height_new]
    exact hlh
  obtain ⟨sa, sb, hsa, hsb, hsh, hLb, hframe⟩ :=
    link_spec hL hc.last hnd hN (hi.lt_ptrHeight hal) hhN hnext
  refine ⟨sa, sb, hsa, hsb, hi.shape.trans hsh, hlh.le, ?_, ?_, hi.reached.mono (Nat.le_succ l)⟩
  · intro l' hl' hor
    exact (hi.old l' hl' (by omega)).congr (hframe _ _ (by omega)) fun i _ =>
      hframe _ _ (by omega)
  · intro l' hle hlt
    rcases Nat.eq_or_lt_of_le hle with rfl | hlt'
    · -- this level
      obtain ⟨hfront, hback⟩ := filter_cut hc.smaller hb
      rw [withNew, hc.chain, hfront, hback]
      exact hLb
    · exact (hi.new l' hlt' hlt).congr (hframe _ _ (by omega)) fun i _ => hframe _ _ (by omega)

/-- **The loop of `Insert`** ends with the new node linked on all its levels. -/
theorem insertLoop_spec (hcmp : Decides cmp D rank) (hDn : ∀ n ∈ s₁.nodes, D n.key) (hDk : D key)
    (hal : Allocated rank s₁ order N h) {fuel level : ℕ} {ptr : Ptr}
    (hi : Inserting rank s₁ order N h (rank key) level ptr s)
    (hf : level + ahead rank s₁ order ptr < fuel) :
    ∃ s' ptr', insertLoop cmp key N fuel s ptr level = .ok s' ∧
      Inserting rank s₁ order N h (rank key) 0 ptr' s' := by
  -- every round goes down a level, or moves on with fewer nodes ahead
  induction fuel generalizing s ptr level with
  | zero => omega
  | succ fuel ih =>
    cases level with
    | zero => exact ⟨s, ptr, rfl, hi⟩
    | succ l =>
      obtain ⟨a, b, hc⟩ := hi.reached.exists_cut hal.sorted
      have hl : l < kSkipListNodeMaxLevel := by
        have h1 := hi.level_le
        have h2 := hal.height_le
        omega
      have hb := hc.linked (hi.old l hl (.inl (Nat.lt_succ_self l)))
      have hdown : ∀ nextPtr, s.getNNode ptr l = .ok nextPtr →
          (∀ i ∈ b, ¬ s₁.rankOf rank i < rank key) →
          ∃ s' ptr', (do
            let s ← s.setNNode ptr l (some N)
            let s ← s.setNNode (.node N) l nextPtr
            insertLoop cmp key N fuel s ptr l) = .ok s' ∧
            Inserting rank s₁ order N h (rank key) 0 ptr' s' := by
        intro nextPtr hnext hbk
        obtain ⟨sa, sb, hsa, hsb, hi'⟩ := hi.link hal hc hbk hnext
        simp only [hsa, hsb, Exec.ok_bind]
        exact ih hi' (by omega)
      rw [insertLoop]
      cases b with
      | nil =>
        have hnext : s.getNNode ptr l = .ok none := hb
        simp only [hnext, Exec.ok_bind, smallerNext]
        exact hdown none hnext (by simp)
      | cons j b =>
        have hnext : s.getNNode ptr l = .ok (some j) := hb.1
        have hj : j < s₁.nodes.length := by
          rw [hal.length]
          exact (hal.order_lt j (hc.mem (by simp)).1).trans (Nat.lt_succ_self N)
        obtain ⟨n, z, -, hkey, hz, hneg, -, hbot⟩ := exists_compare hcmp hDn hDk hj
        simp only [hnext, Exec.ok_bind, smallerNext, hi.shape.keyAt j, hkey, hz, Exec.pure_eq]
        by_cases hz0 : z < 0
        · simp only [hz0, ↓reduceIte]
          obtain ⟨hreached, hahead⟩ := hc.move hal.sorted hbot (hneg.1 hz0)
          exact ih ⟨hi.shape, hi.level_le, hi.old, hi.new, hreached⟩ (by omega)
        · simp only [hz0, ↓reduceIte]
          exact hdown (some j) hnext (hc.not_smaller hal.sorted fun hlt => hz0 (hneg.2 hlt))

end Insert

theorem cut_append {order : List ℕ} {rk : ℕ → WithBot α} (k : WithBot α)
    (hs : order.Pairwise fun i j => rk i < rk j) :
    order.filter (fun i => rk i < k) ++ order.filter (fun i => ¬ rk i < k) = order := by
  induction order with
  | nil => rfl
  | cons i is ih =>
    obtain ⟨hi, his⟩ := List.pairwise_cons.1 hs
    by_cases hik : rk i < k
    · simpa [List.filter_cons, hik] using ih his
    · have : is.filter (fun i => rk i < k) = [] :=
        List.filter_eq_nil_iff.2 fun j hj => by
          simpa using (not_lt.1 hik).trans (hi j hj).le
      have ih' := ih his
      rw [this, List.nil_append] at ih'
      rw [List.filter_cons_of_neg (by simpa using hik),
        List.filter_cons_of_pos (by simpa using hik), this, ih', List.nil_append]

theorem withNew_perm (rk : ℕ → WithBot α) (k : WithBot α) (N : ℕ) {order : List ℕ}
    (hs : order.Pairwise fun i j => rk i < rk j) : (withNew rk k N order).Perm (N :: order) := by
  refine List.perm_middle.trans (List.Perm.cons N ?_)
  rw [cut_append k hs]

theorem withNew_sorted {rk : ℕ → WithBot α} {k : WithBot α} {N : ℕ} {order : List ℕ}
    (hs : order.Pairwise fun i j => rk i < rk j) (hN : rk N = k) (hne : ∀ i ∈ order, rk i ≠ k) :
    (withNew rk k N order).Pairwise fun i j => rk i < rk j := by
  have hlt : ∀ i ∈ order.filter (fun i => rk i < k), rk i < k := fun i hi => by
    simpa using (List.mem_filter.1 hi).2
  have hgt : ∀ i ∈ order.filter (fun i => ¬ rk i < k), k < rk i := fun i hi => by
    obtain ⟨hi, hik⟩ := List.mem_filter.1 hi
    exact lt_of_le_of_ne (by simpa using hik) (hne i hi).symm
  refine List.pairwise_append.2 ⟨hs.filter _, List.pairwise_cons.2 ⟨?_, hs.filter _⟩, ?_⟩
  · intro j hj; rw [hN]; exact hgt j hj
  · intro i hi j hj
    rcases List.mem_cons.1 hj with rfl | hj
    · rw [hN]; exact hlt i hi
    · exact (hlt i hi).trans (hgt j hj)

/-- Taking out the nodes of a level commutes with putting the new node in its place. -/
theorem filter_withNew {rk : ℕ → WithBot α} {k : WithBot α} {N : ℕ} {order : List ℕ}
    (hs : order.Pairwise fun i j => rk i < rk j) (P : ℕ → Bool) :
    (withNew rk k N order).filter P =
      if P N then withNew rk k N (order.filter P) else order.filter P := by
  have hcomm : ∀ Q : ℕ → Bool, (order.filter Q).filter P = (order.filter P).filter Q := fun Q => by
    rw [List.filter_filter, List.filter_filter]
    exact List.filter_congr fun x _ => Bool.and_comm _ _
  unfold withNew
  rw [List.filter_append, List.filter_cons, hcomm, hcomm]
  split
  · rfl
  · exact cut_append k (hs.filter P)

section Keep

variable {rank : K → α} {order : List ℕ} {key : K} {h : ℕ}

theorem Rep.allocated (hr : Rep rank s order) (key : K) (h2 : h ≤ kSkipListNodeMaxLevel) :
    Allocated rank (s.alloc key h) order s.nodes.length h where
  order_lt i hi := hr.mem_iff.1 hi
  length := by simp [alloc]
  nodup := hr.nodup
  sorted := by
    apply hr.sorted.imp_of_mem
    intro i j hi hj hij
    rwa [alloc_rankOf key h rank (hr.mem_iff.1 hi), alloc_rankOf key h rank (hr.mem_iff.1 hj)]
  head_length := hr.head_length
  height_new := alloc_height_new s key h
  height_le := h2

/-- The loop of `Insert` at its start. -/
theorem Rep.inserting (hr : Rep rank s order) (key : K) (h : ℕ) :
    Inserting rank (s.alloc key h) order s.nodes.length h (rank key) h .head (s.alloc key h) where
  shape := .refl _
  level_le := le_rfl
  old l hl _ := by
    have hfilter : (order.filter fun i => l < (s.alloc key h).height i) =
        order.filter fun i => l < s.height i :=
      List.filter_congr fun i hi => by rw [alloc_height key h (hr.mem_iff.1 hi)]
    rw [hfilter]
    refine (hr.linked l hl).congr rfl fun i hi => alloc_getNNode key h ?_ l
    exact hr.mem_iff.1 (List.mem_filter.1 hi).1
  new l hle hlt := absurd hlt (not_lt.2 hle)
  reached := .inl rfl

/-- The loop of `Insert` at its end. -/
theorem Rep.of_inserting (hr : Rep rank s order) (hne : ∀ n ∈ s.nodes, rank n.key ≠ rank key)
    (h1 : 1 ≤ h) (h2 : h ≤ kSkipListNodeMaxLevel) {ptr : Ptr}
    (hi : Inserting rank (s.alloc key h) order s.nodes.length h (rank key) 0 ptr s') :
    Rep rank s' (withNew (s'.rankOf rank) (rank key) s.nodes.length order) := by
  have hsh := hi.shape
  have hs := (hr.allocated key h2).sorted
  have hrk : s'.rankOf rank = (s.alloc key h).rankOf rank := funext (hsh.rankOf rank)
  have hne' : ∀ i ∈ order, (s.alloc key h).rankOf rank i ≠ rank key := by
    intro i hi
    obtain ⟨n, hn, -, -, hri⟩ := exists_keyAt (s := s) rank (hr.mem_iff.1 hi)
    rw [alloc_rankOf key h rank (hr.mem_iff.1 hi), hri]
    exact fun e => hne n hn (WithBot.coe_inj.1 e)
  have hnodes : s'.nodes.length = s.nodes.length + 1 := by
    rw [hsh.length]
    simp [alloc]
  have hheight : ∀ i < s'.nodes.length,
      s'.height i = if i = s.nodes.length then h else s.height i := by
    intro i hi
    rw [hsh.height]
    split
    · rename_i e
      rw [e, alloc_height_new]
    · exact alloc_height key h (by omega)
  -- Below the new height a level now has the new node, from there on it is as it was.
  rw [hrk]
  refine ⟨hsh.head_length.trans hr.head_length, ?_, ?_, ?_, ?_, ?_⟩
  · refine (withNew_perm _ _ _ hs).trans ?_
    rw [hnodes, List.range_succ]
    exact (hr.perm.cons _).trans (List.perm_append_singleton _ _).symm
  · rw [hrk]
    exact withNew_sorted hs (alloc_rankOf_new s key h rank) hne'
  · intro i hi
    rw [hheight i hi]
    split
    · omega
    · exact hr.height_pos i (by omega)
  · intro i hi
    rw [hheight i hi]
    split
    · exact h2
    · exact hr.height_le i (by omega)
  · intro l hl
    have hP : (fun i => decide (l < s'.height i)) =
        fun i => decide (l < (s.alloc key h).height i) := by
      funext i
      rw [hsh.height]
    rw [hP, filter_withNew hs, alloc_height_new]
    by_cases hlh : l < h
    · simpa [hlh] using hi.new l (Nat.zero_le l) hlh
    · simpa [hlh] using hi.old l hl (.inr (not_lt.1 hlh))

/-- **`Insert` keeps the invariant.**  For a key that is not in the list and every height from 1
to `kSkipListNodeMaxLevel`, `Insert` ends without a failed assertion, adds one node with that key
and height, and puts it in its place in the order. -/
theorem insert_spec {cmp : K → K → Exec ℤ} {D : K → Prop} (hr : Rep rank s order)
    (hcmp : Decides cmp D rank) (hDn : ∀ n ∈ s.nodes, D n.key) (hDk : D key)
    (hne : ∀ n ∈ s.nodes, rank n.key ≠ rank key) (h1 : 1 ≤ h) (h2 : h ≤ kSkipListNodeMaxLevel) :
    ∃ s', s.insert cmp key h = .ok s' ∧ SameShape (s.alloc key h) s' ∧
      Rep rank s' (withNew (s'.rankOf rank) (rank key) s.nodes.length order) := by
  have hDn' : ∀ n ∈ (s.alloc key h).nodes, D n.key := by
    intro n hn
    rcases List.mem_append.1 hn with hn | hn
    · exact hDn n hn
    · rw [List.mem_singleton.1 hn]
      exact hDk
  have hfuel : h + ahead rank (s.alloc key h) order .head < s.nodes.length + h + 1 := by
    have h3 := ahead_le rank (s.alloc key h) order .head
    have h4 : order.length = s.nodes.length := by simpa using hr.perm.length_eq
    omega
  obtain ⟨s', ptr, hins, hi⟩ :=
    insertLoop_spec hcmp hDn' hDk (hr.allocated key h2) (hr.inserting key h) hfuel
  exact ⟨s', hins, hi.shape, hr.of_inserting hne h1 h2 hi⟩

end Keep

/-! ### Search -/

section Find

variable {cmp : K → K → Exec ℤ} {D : K → Prop} {rank : K → α} {order : List ℕ} {key : K}

/-- The key of the first node of `order` whose rank is not smaller than `k`. -/
def lowerBound (rank : K → α) (s : SkipList K) (order : List ℕ) (k : α) : Option K :=
  (order.find? fun i => ¬ s.rankOf rank i < k).bind fun i => (s.nodes[i]?).map Node.key

/-- Where the smaller nodes end in `order`, the lower bound is. -/
theorem lowerBound_eq {k : α} {a b : List ℕ} (ha : ∀ i ∈ a, s.rankOf rank i < k)
    (hb : ∀ j b', b = j :: b' → ¬ s.rankOf rank j < k) :
    lowerBound rank s (a ++ b) k = b.head?.bind fun i => (s.nodes[i]?).map Node.key := by
  have hnone : a.find? (fun i => decide ¬ s.rankOf rank i < k) = none :=
    List.find?_eq_none.2 fun i hi => by simpa using ha i hi
  rw [lowerBound, List.find?_append, hnone, Option.none_or]
  cases b with
  | nil => rfl
  | cons j b => 
    rw [List.find?_cons_of_pos (p := fun i => decide ¬ s.rankOf rank i < k)
      (decide_eq_true (hb j b rfl))]
    rfl

/-- An equal key is the lower bound, on whatever level it is found. -/
theorem lowerBound_of_eq (hr : Rep rank s order) {k : α} {j : ℕ} (hj : j ∈ order)
    (heq : s.rankOf rank j = k) :
    lowerBound rank s order k = (s.nodes[j]?).map Node.key := by
  obtain ⟨a, b, hab⟩ := List.append_of_mem hj
  have hsorted := hr.sorted
  rw [hab, List.pairwise_append] at hsorted
  rw [hab, lowerBound_eq (fun i hi => heq ▸ hsorted.2.2 i hi j (by simp))]
  · rfl
  · rintro j' b' ⟨⟩
    rw [heq]
    exact lt_irrefl _

/-- On level 0 the search ends where the chain is cut. -/
theorem Cut.lowerBound (hr : Rep rank s order) {k : α} {ptr : Ptr} {a b : List ℕ}
    (hc : Cut rank s order k 0 ptr a b) (hb : ∀ j b', b = j :: b' → ¬ s.rankOf rank j < k) :
    lowerBound rank s order k = b.head?.bind fun i => (s.nodes[i]?).map Node.key := by
  have horder : order = a ++ b := by rw [← hc.chain, hr.filter_zero]
  rw [horder]
  exact lowerBound_eq hc.smaller hb

/-- The loop of `FindFirstGreaterOrEqual`: everything up to `ptr` is smaller than the key. -/
theorem findLoop_spec (hr : Rep rank s order) (hcmp : Decides cmp D rank)
    (hDn : ∀ n ∈ s.nodes, D n.key) (hDk : D key) {fuel level : ℕ} {ptr : Ptr}
    (hlevel : level < kSkipListNodeMaxLevel)
    (hptr : Reached rank s order (rank key) (level + 1) ptr)
    (hf : level + ahead rank s order ptr < fuel) :
    findLoop cmp s key fuel ptr level = .ok (lowerBound rank s order (rank key)) := by
  induction fuel generalizing ptr level with
  | zero => omega
  | succ fuel ih =>
    obtain ⟨a, b, hc⟩ := hptr.exists_cut hr.sorted
    have hb := hc.linked (hr.linked level hlevel)
    -- one level down from the same node
    have hdown : ∀ l, level = l + 1 →
        findLoop cmp s key fuel ptr l = .ok (lowerBound rank s order (rank key)) := by
      rintro l rfl
      exact ih (by omega) (hptr.mono (by omega)) (by omega)
    rw [findLoop.eq_def]
    cases b with
    | nil =>
      have hnext : s.getNNode ptr level = .ok none := hb
      simp only [hnext, Exec.ok_bind, Exec.pure_eq]
      cases level with
      | zero =>
        rw [hc.lowerBound hr (by simp)]
        rfl
      | succ l => exact hdown l rfl
    | cons j b =>
      have hnext : s.getNNode ptr level = .ok (some j) := hb.1
      have hj := (hc.mem (i := j) (by simp)).1
      obtain ⟨n, z, hget, hkey, hz, hneg, hzero, hbot⟩ :=
        exists_compare hcmp hDn hDk (hr.mem_iff.1 hj)
      simp only [hnext, Exec.ok_bind, hkey, hz, Exec.pure_eq]
      by_cases hz0 : z < 0
      · simp only [hz0, ↓reduceIte]
        obtain ⟨hreached, hahead⟩ := hc.move hr.sorted hbot (hneg.1 hz0)
        exact ih hlevel hreached (by omega)
      · by_cases hz1 : z = 0
        · -- an equal key ends the search on any level
          simp only [hz1, ↓reduceIte]
          rw [lowerBound_of_eq hr hj (hzero.1 hz1), hget]
          rfl
        · simp only [hz0, hz1, ↓reduceIte]
          cases level with
          | zero =>
            rw [hc.lowerBound hr]
            · simp [hget]
            · rintro j' b' ⟨⟩
              exact fun hlt => hz0 (hneg.2 hlt)
          | succ l => exact hdown l rfl

/-- **`FindFirstGreaterOrEqual` finds the lower bound**, without a failed assertion. -/
theorem find_spec (hr : Rep rank s order) (hcmp : Decides cmp D rank)
    (hDn : ∀ n ∈ s.nodes, D n.key) (hDk : D key) :
    s.findFirstGreaterOrEqual cmp key = .ok (lowerBound rank s order (rank key)) := by
  refine findLoop_spec hr hcmp hDn hDk (by decide) (.inl rfl) ?_
  have h1 := ahead_le rank s order .head
  have h2 : order.length = s.nodes.length := by simpa using hr.perm.length_eq
  simp only [kSkipListNodeMaxLevel]
  omega

end Find

/-! ### Enumeration -/

theorem chainFrom_eq {l : ℕ} {p : Ptr} {is : List ℕ} (h : s.Linked l p is) {fuel : ℕ}
    (hf : is.length < fuel) : s.chainFrom l fuel p = .ok is := by
  induction is generalizing p fuel with
  | nil =>
    obtain ⟨f, rfl⟩ := Nat.exists_eq_succ_of_ne_zero (show fuel ≠ 0 by omega)
    have h : s.getNNode p l = .ok none := h
    simp [chainFrom, h]
  | cons i is ih =>
    obtain ⟨f, rfl⟩ := Nat.exists_eq_succ_of_ne_zero (show fuel ≠ 0 by omega)
    simp only [List.length_cons] at hf
    simp [chainFrom, h.1, ih h.2 (show is.length < f by omega)]

theorem collect_eq {p : Ptr} {is : List ℕ} {it : Iterator} (h : s.Linked 0 p is)
    (hit : s.getNNode p 0 = .ok it.node) (hmem : ∀ i ∈ is, i < s.nodes.length) {fuel : ℕ}
    (hf : is.length < fuel) :
    it.collect s fuel = .ok (is.filterMap fun i => (s.nodes[i]?).map Node.key) := by
  induction is generalizing p it fuel with
  | nil =>
    obtain ⟨f, rfl⟩ := Nat.exists_eq_succ_of_ne_zero (show fuel ≠ 0 by omega)
    have : it.node = none := by
      have h : s.getNNode p 0 = .ok none := h
      rw [h] at hit; exact (Except.ok.inj hit).symm
    simp [Iterator.collect, Iterator.valid, this]
  | cons i is ih =>
    obtain ⟨f, rfl⟩ := Nat.exists_eq_succ_of_ne_zero (show fuel ≠ 0 by omega)
    simp only [List.length_cons] at hf
    have hnode : it.node = some i := by
      have := h.1
      rw [this] at hit; exact (Except.ok.inj hit).symm
    have hi := hmem i (by simp)
    have hkey : s.keyAt i = .ok s.nodes[i].key :=
      keyAt_eq_ok.2 ⟨_, List.getElem?_eq_getElem hi, rfl⟩
    obtain ⟨q, hq⟩ := Linked.exists_getNNode h.2
    have hrec : (⟨q⟩ : Iterator).collect s f = _ :=
      ih h.2 hq (fun j hj => hmem j (List.mem_cons_of_mem _ hj)) (by omega)
    simp [Iterator.collect, Iterator.valid, Iterator.key, Iterator.next, hnode, hkey, hq, hrec, hi]

variable {rank : K → α} {order : List ℕ}

/-- The links of a level lead through the nodes that are higher than the level. -/
theorem chain_eq (hr : Rep rank s order) {l : ℕ} (hl : l < kSkipListNodeMaxLevel) :
    s.chain l = .ok (order.filter fun i => l < s.height i) := by
  refine chainFrom_eq (hr.linked l hl) ?_
  have h1 := List.length_filter_le (fun i => decide (l < s.height i)) order
  have h2 : order.length = s.nodes.length := by simpa using hr.perm.length_eq
  omega

/-- The iterator enumerates the keys of all nodes in the order of the list. -/
theorem keys_eq (hr : Rep rank s order) :
    s.keys = .ok (order.filterMap fun i => (s.nodes[i]?).map Node.key) := by
  have hlink := hr.linked 0 (by decide)
  rw [hr.filter_zero] at hlink
  obtain ⟨q, hq⟩ : ∃ q, s.getNNode .head 0 = .ok q := by
    cases order with
    | nil => exact ⟨none, hlink⟩
    | cons j is => exact ⟨some j, hlink.1⟩
  have h2 : order.length = s.nodes.length := by simpa using hr.perm.length_eq
  simp only [keys, Iterator.make, hq, Exec.ok_bind, Exec.pure_eq]
  exact collect_eq hlink hq (fun i hi => hr.mem_iff.1 hi) (by omega)

/-- Membership in the node list, through the order. -/
theorem Rep.exists_index (hr : Rep rank s order) {n : Node K} (hn : n ∈ s.nodes) :
    ∃ i ∈ order, s.nodes[i]? = some n ∧ s.rankOf rank i = rank n.key := by
  obtain ⟨i, hi, rfl⟩ := List.getElem_of_mem hn
  exact ⟨i, hr.mem_iff.2 hi, List.getElem?_eq_getElem hi, by simp [rankOf, hi]⟩

theorem lowerBound_eq_none (hr : Rep rank s order) {k : α} :
    lowerBound rank s order k = none ↔ ∀ n ∈ s.nodes, rank n.key < k := by
  constructor
  · intro h n hn
    obtain ⟨i, hi, hni, hri⟩ := hr.exists_index hn
    by_contra hlt
    have hsome : (order.find? fun j => decide ¬ s.rankOf rank j < k).isSome := by
      rw [List.find?_isSome]
      exact ⟨i, hi, by simpa [hri] using hlt⟩
    obtain ⟨j, hj⟩ := Option.isSome_iff_exists.1 hsome
    have hjlt := hr.mem_iff.1 (List.mem_of_find?_eq_some hj)
    rw [lowerBound, hj] at h
    simp [hjlt] at h
  · intro h
    have : order.find? (fun j => decide ¬ s.rankOf rank j < k) = none := by
      refine List.find?_eq_none.2 fun i hi => ?_
      obtain ⟨n, hn, -, -, hri⟩ := exists_keyAt (s := s) rank (hr.mem_iff.1 hi)
      simpa [hri] using h n hn
    rw [lowerBound, this, Option.bind_none]

theorem lowerBound_eq_some (hr : Rep rank s order) {k : α} {key : K}
    (h : lowerBound rank s order k = some key) :
    (∃ n ∈ s.nodes, n.key = key) ∧ k ≤ rank key ∧
      ∀ n ∈ s.nodes, k ≤ rank n.key → rank key ≤ rank n.key := by
  obtain ⟨i, hfind, hkey⟩ := Option.bind_eq_some_iff.1 h
  obtain ⟨hPi, a, b, hab, hna⟩ := List.find?_eq_some_iff_append.1 hfind
  have hi : i ∈ order := by rw [hab]; simp
  obtain ⟨n, hn, hni, -, hri⟩ := exists_keyAt (s := s) rank (hr.mem_iff.1 hi)
  have hnk : n.key = key := by simpa [hni] using hkey
  subst hnk
  refine ⟨⟨n, hn, rfl⟩, by simpa [hri] using hPi, ?_⟩
  intro m hm hkm
  obtain ⟨j, hj, -, hrj⟩ := hr.exists_index hm
  have hjk : ¬ s.rankOf rank j < k := by simpa [hrj] using hkm
  rw [hab, List.mem_append, List.mem_cons] at hj
  rcases hj with hj | rfl | hj
  · exact absurd (hna j hj) (by simpa using hjk)
  · exact (WithBot.coe_inj.1 (hri.symm.trans hrj)).le
  · have hs := hr.sorted
    rw [hab, List.pairwise_append] at hs
    have := (List.pairwise_cons.1 hs.2.1).1 j hj
    rw [hri, hrj, WithBot.coe_lt_coe] at this
    exact this.le

theorem filterMap_range {β : Type} (l : List β) :
    (List.range l.length).filterMap (fun i => l[i]?) = l := by
  induction l using List.reverseRecOn with
  | nil => rfl
  | append_singleton l a ih =>
    have : (List.range l.length).filterMap (fun i => (l ++ [a])[i]?) =
        (List.range l.length).filterMap fun i => l[i]? :=
      List.filterMap_congr fun i hi => List.getElem?_append_left (List.mem_range.1 hi)
    rw [List.length_append, List.length_singleton, List.range_succ, List.filterMap_append, this, ih]
    simp

/-- What the iterator enumerates is a permutation of the keys, in strictly increasing order. -/
theorem keys_perm (hr : Rep rank s order) :
    (order.filterMap fun i => (s.nodes[i]?).map Node.key).Perm (s.nodes.map Node.key) := by
  refine (hr.perm.filterMap _).trans (List.Perm.of_eq ?_)
  rw [← List.map_filterMap, filterMap_range]

theorem keys_sorted (hr : Rep rank s order) :
    (order.filterMap fun i => (s.nodes[i]?).map Node.key).Pairwise fun a b => rank a < rank b := by
  rw [List.pairwise_filterMap]
  apply hr.sorted.imp_of_mem
  intro i j hi hj hij a ha b hb
  obtain ⟨n, hn, rfl⟩ := Option.map_eq_some_iff.1 ha
  obtain ⟨m, hm, rfl⟩ := Option.map_eq_some_iff.1 hb
  simpa [rankOf, hn, hm] using hij

/-! ### Histories of insertions -/

/-- `Insert` for each key and height of a list, starting with the empty list. -/
def build (cmp : K → K → Exec ℤ) (ins : List (K × ℕ)) : Exec (SkipList K) :=
  ins.foldlM (fun s x => s.insert cmp x.1 x.2) empty

/-- Every history of insertions of distinct keys leads to a list that satisfies the invariant. -/
theorem build_rep {cmp : K → K → Exec ℤ} {D : K → Prop} (hcmp : Decides cmp D rank)
    {ins : List (K × ℕ)} (hD : ∀ x ∈ ins, D x.1) (hnd : (ins.map fun x => rank x.1).Nodup)
    (hh : ∀ x ∈ ins, 1 ≤ x.2 ∧ x.2 ≤ kSkipListNodeMaxLevel) :
    ∃ s order, build cmp ins = .ok s ∧ Rep rank s order ∧
      s.nodes.map (fun n => (n.key, n.next.length)) = ins := by
  induction ins using List.reverseRecOn with
  | nil => exact ⟨empty, [], rfl, rep_empty rank, rfl⟩
  | append_singleton ins x ih =>
    rw [List.map_append, List.nodup_append] at hnd
    obtain ⟨s, order, hb, hr, hn⟩ := ih (fun y hy => hD y (List.mem_append_left _ hy)) hnd.1
      (fun y hy => hh y (List.mem_append_left _ hy))
    have hmem : ∀ n ∈ s.nodes, ∃ y ∈ ins, y.1 = n.key := fun n hn' => by
      refine ⟨(n.key, n.next.length), ?_, rfl⟩
      rw [← hn]; exact List.mem_map_of_mem hn'
    have hx := hh x (by simp)
    -- The key is new, since the ranks of the insertions are distinct.
    obtain ⟨s', hins, hsh, hr'⟩ := insert_spec hr hcmp
      (fun n hn' => by
        obtain ⟨y, hy, hyn⟩ := hmem n hn'
        exact hyn ▸ hD y (List.mem_append_left _ hy))
      (hD x (by simp))
      (fun n hn' => by
        obtain ⟨y, hy, hyn⟩ := hmem n hn'
        exact hyn ▸ hnd.2.2 _ (List.mem_map_of_mem hy) _ (by simp))
      hx.1 hx.2
    refine ⟨s', _, ?_, hr', ?_⟩
    · rw [build, List.foldlM_append]
      rw [build] at hb
      simp [hb, hins]
    · rw [hsh.map_eq, alloc, List.map_append, hn]
      simp

/-- The nodes higher than a level, after the insertions `ins`. -/
theorem Rep.mem_filter_iff (hr : Rep rank s order) {ins : List (K × ℕ)}
    (hn : s.nodes.map (fun n => (n.key, n.next.length)) = ins) {l i : ℕ} :
    (i ∈ order.filter fun i => l < s.height i) ↔ ∃ x, ins[i]? = some x ∧ l < x.2 := by
  rw [List.mem_filter, hr.mem_iff, ← hn, List.getElem?_map]
  constructor
  · rintro ⟨hi, hli⟩
    refine ⟨(s.nodes[i].key, s.nodes[i].next.length), by simp [hi], ?_⟩
    simpa [height, hi] using hli
  · rintro ⟨x, hx, hlx⟩
    obtain ⟨n, hni, rfl⟩ := Option.map_eq_some_iff.1 hx
    have hi : i < s.nodes.length := by
      by_contra hi
      simp [List.getElem?_eq_none (not_lt.1 hi)] at hni
    exact ⟨hi, by simpa [height, hni] using hlx⟩

theorem filter_height_sublist (s : SkipList K) (order : List ℕ) (l : ℕ) :
    (order.filter fun i => l + 1 < s.height i).Sublist (order.filter fun i => l < s.height i) := by
  have hfilter : (order.filter fun i => l + 1 < s.height i) =
      (order.filter fun i => l < s.height i).filter fun i => l + 1 < s.height i := by
    rw [List.filter_filter]
    apply List.filter_congr
    intro i _
    rw [Bool.eq_iff_iff]
    simp only [decide_eq_true_eq, Bool.and_eq_true]
    omega
  rw [hfilter]
  exact List.filter_sublist

/-- **The skip list is correct for every history and every coin toss.**  For insertions of
pairwise distinct keys with any heights from 1 to `kSkipListNodeMaxLevel`, no assertion fails and
every loop ends.  On each level exactly the nodes higher than it are linked, each level is a
sublist of the one below, the iterator enumerates level 0, which holds the inserted keys in
strictly increasing order, and `FindFirstGreaterOrEqual` returns the least key that is not smaller
than its argument, or false when there is none.  (The node `i` is the one of the `i`-th
insertion.) -/
theorem build_correct {cmp : K → K → Exec ℤ} (hcmp : Decides cmp (fun _ => True) rank)
    (ins : List (K × ℕ)) (hnd : (ins.map fun x => rank x.1).Nodup)
    (hh : ∀ x ∈ ins, 1 ≤ x.2 ∧ x.2 ≤ kSkipListNodeMaxLevel) :
    ∃ s, build cmp ins = .ok s ∧
      (∀ l < kSkipListNodeMaxLevel, ∃ c, s.chain l = .ok c ∧ c.Nodup ∧
        ∀ i, i ∈ c ↔ ∃ x, ins[i]? = some x ∧ l < x.2) ∧
      (∀ l, l + 1 < kSkipListNodeMaxLevel → ∃ c c', s.chain l = .ok c ∧ s.chain (l + 1) = .ok c' ∧
        c'.Sublist c) ∧
      (∃ c ks, s.chain 0 = .ok c ∧ s.keys = .ok ks ∧
        ks = c.filterMap (fun i => (ins[i]?).map Prod.fst) ∧ ks.Perm (ins.map Prod.fst) ∧
        ks.Pairwise fun a b => rank a < rank b) ∧
      ∀ t, ∃ r, s.findFirstGreaterOrEqual cmp t = .ok r ∧
        (∀ k, r = some k → k ∈ ins.map Prod.fst ∧ rank t ≤ rank k ∧
          ∀ k' ∈ ins.map Prod.fst, rank t ≤ rank k' → rank k ≤ rank k') ∧
        (r = none ↔ ∀ k' ∈ ins.map Prod.fst, rank k' < rank t) := by
  obtain ⟨s, order, hb, hr, hn⟩ := build_rep hcmp (fun _ _ => trivial) hnd hh
  have hget : ∀ i : ℕ, (s.nodes[i]?).map (fun n => (n.key, n.next.length)) = ins[i]? := fun i => by
    rw [← List.getElem?_map, hn]
  have hkeys : s.nodes.map Node.key = ins.map Prod.fst := by rw [← hn, List.map_map]; rfl
  have hnode : ∀ k ∈ ins.map Prod.fst, ∃ n ∈ s.nodes, n.key = k := fun k hk => by
    rw [← hkeys] at hk; exact List.mem_map.1 hk
  have hnode' : ∀ n ∈ s.nodes, n.key ∈ ins.map Prod.fst := fun n hn' => by
    rw [← hkeys]; exact List.mem_map_of_mem hn'
  refine ⟨s, hb, fun l hl => ⟨_, chain_eq hr hl, hr.nodup.filter _, fun i => hr.mem_filter_iff hn⟩,
    ?_, ?_, fun t => ⟨_, find_spec hr hcmp (fun _ _ => trivial) trivial, ?_, ?_⟩⟩
  · intro l hl
    exact ⟨_, _, chain_eq hr (by omega), chain_eq hr hl, filter_height_sublist s order l⟩
  · refine ⟨order, _, ?_, keys_eq hr, ?_, hkeys ▸ keys_perm hr, keys_sorted hr⟩
    · rw [chain_eq hr (by decide), hr.filter_zero]
    · apply List.filterMap_congr
      intro i _
      rw [← hget i, Option.map_map]
      rfl
  · intro k hk
    obtain ⟨⟨n, hn', rfl⟩, hle, hmin⟩ := lowerBound_eq_some hr hk
    refine ⟨hnode' n hn', hle, ?_⟩
    intro k' hk' hle'
    obtain ⟨m, hm, rfl⟩ := hnode k' hk'
    exact hmin m hm hle'
  · rw [lowerBound_eq_none hr]
    constructor
    · intro h k hk
      obtain ⟨n, hn', rfl⟩ := hnode k hk
      exact h n hn'
    · intro h n hn'
      exact h n.key (hnode' n hn')

/-- The hypotheses of `build_correct` at three insertions of numbers. -/
theorem build_correct_numbers :
    ∃ s, build (fun a b : ℕ => .ok (threeWay a b)) [(5, 2), (3, 20), (9, 1)] = .ok s := by
  have hcmp : Decides (fun a b : ℕ => .ok (threeWay a b)) (fun _ => True) (id : ℕ → ℕ) :=
    Decides.of_threeWay fun _ _ _ _ => rfl
  obtain ⟨s, hs, -⟩ := build_correct hcmp [(5, 2), (3, 20), (9, 1)] (by decide) (by decide)
  exact ⟨s, hs⟩

end SkipList

end KoishiDB
