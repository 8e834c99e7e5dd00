import KoishiDB.Memory.SkipListInv

/-!
# The shape of a skip list, and its end

`KoishiDB.Memory.SkipListInv` is about comparators that decide a linear order and about distinct
keys.  The links do not need either.  `Woven s order` says that the chains of all levels run
through one list of nodes, in one order; `Insert` keeps it whatever the comparator answers, since
a node that has stopped the descent on one level stops it again on the levels below.  So equal
keys, or a comparator that contradicts itself, can put keys in a useless order, but they cannot
lose a node, close a cycle, or make a loop run forever.

The destructor rests on the shape only.  It reads the next link of a node, deletes the node and
goes on; here a node that has been deleted faults when it is read or deleted again, so that
`destroy_deletes_each_node_once` says that neither happens and that nothing is left.
-/

namespace KoishiDB

namespace SkipList

variable {K : Type} {s s' : SkipList K} {order : List ℕ}

/-- The nodes of `c` that are linked on level `l`. -/
def above (s : SkipList K) (l : ℕ) (c : List ℕ) : List ℕ := c.filter fun i => l < s.height i

section Above

variable {l i : ℕ} {c c' : List ℕ}

@[simp] theorem above_nil : s.above l [] = [] := rfl

theorem above_append : s.above l (c ++ c') = s.above l c ++ s.above l c' := List.filter_append c c'

theorem above_cons_of_lt (h : l < s.height i) : s.above l (i :: c) = i :: s.above l c :=
  List.filter_cons_of_pos (by simpa using h)

theorem above_cons_of_le (h : s.height i ≤ l) : s.above l (i :: c) = s.above l c :=
  List.filter_cons_of_neg (by simpa using h)

theorem above_eq_nil (h : ∀ i ∈ c, s.height i ≤ l) : s.above l c = [] :=
  List.filter_eq_nil_iff.2 fun i hi => by simpa using h i hi

theorem above_congr (h : ∀ i ∈ c, s'.height i = s.height i) : s'.above l c = s.above l c :=
  List.filter_congr fun i hi => by rw [h i hi]

end Above

/-- **The shape of a skip list.**  `order` lists all nodes once, and the chain of every level runs
through those that are higher than the level, in this order. -/
structure Woven (s : SkipList K) (order : List ℕ) : Prop where
  head_length : s.head.length = kSkipListNodeMaxLevel
  perm : order.Perm (List.range s.nodes.length)
  height_pos : ∀ i < s.nodes.length, 0 < s.height i
  linked : ∀ l < kSkipListNodeMaxLevel, s.Linked l .head (s.above l order)

theorem woven_empty : Woven (empty : SkipList K) [] where
  head_length := by simp [empty]
  perm := by simp [empty]
  height_pos := by simp [empty]
  linked l hl := by simp [above, Linked, getNNode, links, empty, hl]

/-- The invariant for ordered keys has this shape. -/
theorem Rep.woven {α : Type} [LinearOrder α] {rank : K → α} (hr : Rep rank s order) :
    Woven s order :=
  ⟨hr.head_length, hr.perm, hr.height_pos, hr.linked⟩

namespace Woven

variable (hw : Woven s order)
include hw

theorem mem_iff {i : ℕ} : i ∈ order ↔ i < s.nodes.length := by
  rw [hw.perm.mem_iff, List.mem_range]

theorem nodup : order.Nodup := hw.perm.nodup_iff.2 List.nodup_range

theorem length_eq : order.length = s.nodes.length := by simpa using hw.perm.length_eq

theorem exists_keyAt {i : ℕ} (hi : i ∈ order) : ∃ n ∈ s.nodes, s.keyAt i = .ok n.key := by
  have hlt := hw.mem_iff.1 hi
  exact ⟨s.nodes[i], List.getElem_mem hlt, keyAt_eq_ok.2 ⟨_, List.getElem?_eq_getElem hlt, rfl⟩⟩

/-- Level 0 holds every node. -/
theorem above_zero : s.above 0 order = order :=
  List.filter_eq_self.2 fun i hi => by simpa using hw.height_pos i (hw.mem_iff.1 hi)

theorem linked_zero : s.Linked 0 .head order := by
  have h := hw.linked 0 (by decide)
  rwa [hw.above_zero] at h

/-- The links of a level lead through the nodes that are higher than the level. -/
theorem chain {l : ℕ} (hl : l < kSkipListNodeMaxLevel) : s.chain l = .ok (s.above l order) := by
  refine chainFrom_eq (hw.linked l hl) ?_
  have h1 : (s.above l order).length ≤ order.length := List.length_filter_le _ _
  have h2 := hw.length_eq
  omega

/-- The iterator enumerates the keys of all nodes. -/
theorem keys : s.keys = .ok (order.filterMap fun i => (s.nodes[i]?).map Node.key) := by
  obtain ⟨q, hq⟩ := hw.linked_zero.exists_getNNode
  have h2 := hw.length_eq
  simp only [SkipList.keys, Iterator.make, hq, Exec.ok_bind, Exec.pure_eq]
  exact collect_eq hw.linked_zero hq (fun i hi => hw.mem_iff.1 hi) (by omega)

theorem keys_perm :
    (order.filterMap fun i => (s.nodes[i]?).map Node.key).Perm (s.nodes.map Node.key) := by
  refine (hw.perm.filterMap _).trans (List.Perm.of_eq ?_)
  rw [← List.map_filterMap, filterMap_range]

end Woven

/-! ### The descent -/

section Descent

variable {cmp : K → K → Exec ℤ} {key : K} {s₁ : SkipList K} {front back : List ℕ} {ptr : Ptr}
  {level l j : ℕ}

/-- The descent has passed `front`; the node it stands at is linked on the levels below
`level`. -/
def Standing (s : SkipList K) (level : ℕ) (front : List ℕ) (ptr : Ptr) : Prop :=
  (front = [] ∧ ptr = .head) ∨ ∃ f i, front = f ++ [i] ∧ ptr = .node i ∧ level ≤ s.height i

theorem Standing.mono (h : Standing s level front ptr) (hle : l ≤ level) :
    Standing s l front ptr := by
  rcases h with h | ⟨f, i, hf, hp, hi⟩
  · exact .inl h
  · exact .inr ⟨f, i, hf, hp, hle.trans hi⟩

/-- On a level still to do, `ptr` is the last node of what has been passed. -/
theorem Standing.last (h : Standing s (l + 1) front ptr) :
    lastPtr .head (s.above l front) = ptr := by
  rcases h with ⟨rfl, rfl⟩ | ⟨f, i, rfl, rfl, hi⟩
  · rfl
  · rw [above_append, above_cons_of_lt hi, above_nil, lastPtr_append]

/-- What follows `ptr` on a level are the nodes not yet passed. -/
theorem Standing.linked (h : Standing s₁ (l + 1) front ptr)
    (hL : s.Linked l .head (s₁.above l (front ++ back))) :
    s.Linked l ptr (s₁.above l back) := by
  rw [above_append] at hL
  have hb := (linked_append.1 hL).2
  rwa [h.last] at hb

/-- The comparator puts node `i` in front of the key. -/
def Smaller (cmp : K → K → Exec ℤ) (s : SkipList K) (key : K) (i : ℕ) : Prop :=
  ∃ k c, s.keyAt i = .ok k ∧ cmp k key = .ok c ∧ c < 0

/-- The next node of a level, with the nodes in between that are not linked there. -/
theorem above_eq_cons {b : List ℕ} (h : s.above l back = j :: b) :
    ∃ skip rest, back = skip ++ j :: rest ∧ (∀ i ∈ skip, s.height i ≤ l) ∧ l < s.height j ∧
      s.above l rest = b := by
  obtain ⟨skip, rest, hback, hskip, hj, hrest⟩ := List.filter_eq_cons_iff.1 h
  refine ⟨skip, rest, hback, ?_, by simpa using hj, hrest⟩
  intro i hi
  simpa using hskip i hi

end Descent

/-! ### Insertion, with any comparator -/

section Insert

variable {cmp : K → K → Exec ℤ} {D : K → Prop} {key : K} {s₁ : SkipList K}
  {front back : List ℕ} {N h level l j : ℕ} {ptr : Ptr}

/-- The loop of `Insert` at a level.  Above it the new node `N` is linked between what has been
passed and the rest, and there the node that follows it has stopped the descent. -/
structure Weaving (cmp : K → K → Exec ℤ) (key : K) (s₁ : SkipList K) (N h level : ℕ)
    (front back : List ℕ) (ptr : Ptr) (s : SkipList K) : Prop where
  shape : SameShape s₁ s
  level_le : level ≤ h
  old : ∀ l < kSkipListNodeMaxLevel, l < level ∨ h ≤ l →
    s.Linked l .head (s₁.above l (front ++ back))
  new : ∀ l, level ≤ l → l < h → s.Linked l .head (s₁.above l front ++ N :: s₁.above l back)
  stops : ∀ l, level ≤ l → l < h → ∀ j b, s₁.above l back = j :: b → ¬ Smaller cmp s₁ key j
  standing : Standing s₁ level front ptr

/-- A list with a new node that is not linked yet. -/
structure Fresh (s₁ : SkipList K) (order : List ℕ) (N h : ℕ) : Prop where
  order_lt : ∀ i ∈ order, i < N
  nodup : order.Nodup
  head_length : s₁.head.length = kSkipListNodeMaxLevel
  height_new : s₁.height N = h
  height_le : h ≤ kSkipListNodeMaxLevel

namespace Weaving

theorem lt_ptrHeight (hfr : Fresh s₁ (front ++ back) N h)
    (hi : Weaving cmp key s₁ N h (l + 1) front back ptr s) : l < s.ptrHeight ptr := by
  rw [hi.shape.ptrHeight]
  rcases hi.standing with ⟨-, rfl⟩ | ⟨f, i, -, rfl, hli⟩
  · have h1 := hi.level_le
    have h2 := hfr.height_le
    change l < s₁.head.length
    rw [hfr.head_length]
    omega
  · exact hli

/-- **The descent moves on.**  What is passed is not linked on a level where the new node has its
place already: there the next node has stopped the descent. -/
theorem move {b : List ℕ} (hi : Weaving cmp key s₁ N h (l + 1) front back ptr s)
    (hb : s₁.above l back = j :: b) (hsm : Smaller cmp s₁ key j) :
    ∃ front' back', front' ++ back' = front ++ back ∧ back'.length < back.length ∧
      Weaving cmp key s₁ N h (l + 1) front' back' (.node j) s := by
  obtain ⟨skip, rest, rfl, hskip, hj, -⟩ := above_eq_cons hb
  have hassoc : front ++ skip ++ [j] ++ rest = front ++ (skip ++ j :: rest) := by simp
  have hnone : ∀ l', l + 1 ≤ l' → s₁.above l' skip = [] := fun l' hl' =>
    above_eq_nil fun i hi => by
      have := hskip i hi
      omega
  -- `j` would be the next node of the higher level, too
  have hlow : ∀ l', l + 1 ≤ l' → l' < h → s₁.height j ≤ l' := by
    intro l' hl' hlt
    by_contra hlj
    refine hi.stops l' hl' hlt j (s₁.above l' rest) ?_ hsm
    rw [above_append, hnone l' hl', above_cons_of_lt (Nat.not_le.1 hlj), List.nil_append]
  have hback : ∀ l', l + 1 ≤ l' → l' < h →
      s₁.above l' (skip ++ j :: rest) = s₁.above l' rest := by
    intro l' hl' hlt
    rw [above_append, hnone l' hl', above_cons_of_le (hlow l' hl' hlt), List.nil_append]
  have hfront : ∀ l', l + 1 ≤ l' → l' < h →
      s₁.above l' (front ++ skip ++ [j]) = s₁.above l' front := by
    intro l' hl' hlt
    rw [above_append, above_append, hnone l' hl', above_cons_of_le (hlow l' hl' hlt), above_nil,
      List.append_nil, List.append_nil]
  refine ⟨front ++ skip ++ [j], rest, hassoc, by simp; omega, hi.shape, hi.level_le, ?_, ?_, ?_,
    .inr ⟨_, j, rfl, rfl, hj⟩⟩
  · intro l' hl' hor
    rw [hassoc]
    exact hi.old l' hl' hor
  · intro l' hle hlt
    rw [hfront l' hle hlt, ← hback l' hle hlt]
    exact hi.new l' hle hlt
  · intro l' hle hlt j' b' hb'
    exact hi.stops l' hle hlt j' b' ((hback l' hle hlt).trans hb')

/-- **One level is linked**, once the next node on it does not stand in front of the key. -/
theorem link {nextPtr : Option ℕ} (hfr : Fresh s₁ (front ++ back) N h)
    (hi : Weaving cmp key s₁ N h (l + 1) front back ptr s)
    (hstop : ∀ j b, s₁.above l back = j :: b → ¬ Smaller cmp s₁ key j)
    (hnext : s.getNNode ptr l = .ok nextPtr) :
    ∃ sa sb, s.setNNode ptr l (some N) = .ok sa ∧ sa.setNNode (.node N) l nextPtr = .ok sb ∧
      Weaving cmp key s₁ N h l front back ptr sb := by
  have hlh : l < h := hi.level_le
  have hL := hi.old l (Nat.lt_of_lt_of_le hlh hfr.height_le) (.inl (Nat.lt_succ_self l))
  have hnd : (s₁.above l (front ++ back)).Nodup := hfr.nodup.filter _
  have hN : N ∉ s₁.above l (front ++ back) := fun hN =>
    Nat.lt_irrefl _ (hfr.order_lt N (List.mem_filter.1 hN).1)
  have hhN : l < s.height N := by
    rw [hi.shape.height, hfr.height_new]
    exact hlh
  rw [above_append] at hL hnd hN
  obtain ⟨sa, sb, hsa, hsb, hsh, hLb, hframe⟩ :=
    link_spec hL hi.standing.last hnd hN (hi.lt_ptrHeight hfr) hhN hnext
  refine ⟨sa, sb, hsa, hsb, hi.shape.trans hsh, Nat.le_of_lt hlh, ?_, ?_, ?_,
    hi.standing.mono (Nat.le_succ l)⟩
  · intro l' hl' hor
    exact (hi.old l' hl' (by omega)).congr (hframe _ _ (by omega)) fun i _ =>
      hframe _ _ (by omega)
  · intro l' hle hlt
    rcases Nat.eq_or_lt_of_le hle with rfl | hlt'
    · exact hLb
    · exact (hi.new l' hlt' hlt).congr (hframe _ _ (by omega)) fun i _ => hframe _ _ (by omega)
  · intro l' hle hlt
    rcases Nat.eq_or_lt_of_le hle with rfl | hlt'
    · exact hstop
    · exact hi.stops l' hlt' hlt

/-- **The loop of `Insert`** ends with the new node linked on all its levels, if the comparator
answers for all keys of the list. -/
theorem insertLoop (hfr : Fresh s₁ order N h) (hsplit : front ++ back = order)
    (hcmp : ∀ j ∈ order, ∃ k c, s₁.keyAt j = .ok k ∧ cmp k key = .ok c) {fuel : ℕ}
    (hi : Weaving cmp key s₁ N h level front back ptr s) (hf : level + back.length < fuel) :
    ∃ s' front' back' ptr', SkipList.insertLoop cmp key N fuel s ptr level = .ok s' ∧
      front' ++ back' = order ∧ Weaving cmp key s₁ N h 0 front' back' ptr' s' := by
  -- every round goes down a level, or moves on with fewer nodes to pass
  induction fuel generalizing s front back ptr level with
  | zero => omega
  | succ fuel ih =>
    cases level with
    | zero => exact ⟨s, front, back, ptr, rfl, hsplit, hi⟩
    | succ l =>
      subst hsplit
      have hl : l < kSkipListNodeMaxLevel := by
        have h1 := hi.level_le
        have h2 := hfr.height_le
        omega
      have hb := hi.standing.linked (hi.old l hl (.inl (Nat.lt_succ_self l)))
      have hdown : ∀ nextPtr, s.getNNode ptr l = .ok nextPtr →
          (∀ j b, s₁.above l back = j :: b → ¬ Smaller cmp s₁ key j) →
          ∃ s' front' back' ptr', (do
            let s ← s.setNNode ptr l (some N)
            let s ← s.setNNode (.node N) l nextPtr
            SkipList.insertLoop cmp key N fuel s ptr l) = .ok s' ∧
            front' ++ back' = front ++ back ∧ Weaving cmp key s₁ N h 0 front' back' ptr' s' := by
        intro nextPtr hnext hstop
        obtain ⟨sa, sb, hsa, hsb, hi'⟩ := hi.link hfr hstop hnext
        simp only [hsa, hsb, Exec.ok_bind]
        exact ih rfl hi' (by omega)
      rw [SkipList.insertLoop]
      cases hback : s₁.above l back with
      | nil =>
        rw [hback] at hb
        have hnext : s.getNNode ptr l = .ok none := hb
        simp only [hnext, Exec.ok_bind, smallerNext]
        exact hdown none hnext (by simp [hback])
      | cons j b =>
        rw [hback] at hb
        have hnext : s.getNNode ptr l = .ok (some j) := hb.1
        have hj : j ∈ front ++ back := by
          have : j ∈ s₁.above l back := by rw [hback]; exact List.mem_cons_self
          exact List.mem_append_right _ (List.mem_filter.1 this).1
        obtain ⟨k, c, hkey, hc⟩ := hcmp j hj
        simp only [hnext, Exec.ok_bind, smallerNext, hi.shape.keyAt j, hkey, hc, Exec.pure_eq]
        by_cases hneg : c < 0
        · simp only [hneg, ↓reduceIte]
          obtain ⟨front', back', hsplit, hlen, hi'⟩ := hi.move hback ⟨_, c, hkey, hc, hneg⟩
          exact ih hsplit hi' (by omega)
        · simp only [hneg, ↓reduceIte]
          refine hdown (some j) hnext ?_
          rintro j' b' hb' ⟨k', c', hk', hc', hneg'⟩
          rw [hback] at hb'
          cases hb'
          rw [hkey] at hk'
          cases hk'
          rw [hc] at hc'
          cases hc'
          exact hneg hneg'

end Weaving

theorem Woven.fresh (hw : Woven s order) (key : K) (h2 : h ≤ kSkipListNodeMaxLevel) :
    Fresh (s.alloc key h) order s.nodes.length h where
  order_lt _ hi := hw.mem_iff.1 hi
  nodup := hw.nodup
  head_length := hw.head_length
  height_new := alloc_height_new s key h
  height_le := h2

/-- The loop of `Insert` at its start. -/
theorem Woven.weaving (hw : Woven s order) (cmp : K → K → Exec ℤ) (key : K) (h : ℕ) :
    Weaving cmp key (s.alloc key h) s.nodes.length h h [] order .head (s.alloc key h) where
  shape := .refl _
  level_le := Nat.le_refl h
  old l hl _ := by
    rw [List.nil_append, above_congr fun i hi => alloc_height key h (hw.mem_iff.1 hi)]
    refine (hw.linked l hl).congr rfl fun i hi => alloc_getNNode key h ?_ l
    exact hw.mem_iff.1 (List.mem_filter.1 hi).1
  new l hle hlt := absurd hlt (Nat.not_lt.2 hle)
  stops l hle hlt := absurd hlt (Nat.not_lt.2 hle)
  standing := .inl ⟨rfl, rfl⟩

/-- The loop of `Insert` at its end. -/
theorem Woven.of_weaving (hw : Woven s (front ++ back)) (h1 : 1 ≤ h)
    (hi : Weaving cmp key (s.alloc key h) s.nodes.length h 0 front back ptr s') :
    Woven s' (front ++ s.nodes.length :: back) := by
  have hsh := hi.shape
  have hnodes : s'.nodes.length = s.nodes.length + 1 := by
    rw [hsh.length]
    simp [alloc]
  have hnew : s'.height s.nodes.length = h := (hsh.height _).trans (alloc_height_new s key h)
  refine ⟨hsh.head_length.trans hw.head_length, ?_, ?_, ?_⟩
  · rw [hnodes, List.range_succ]
    exact List.perm_middle.trans
      ((hw.perm.cons _).trans (List.perm_append_singleton _ _).symm)
  · intro i hlt
    by_cases hi' : i = s.nodes.length
    · rw [hi', hnew]
      omega
    · rw [hsh.height, alloc_height key h (by omega)]
      exact hw.height_pos i (by omega)
  · intro l hl
    have hab : ∀ c, s'.above l c = (s.alloc key h).above l c := fun c =>
      above_congr fun i _ => hsh.height i
    rw [above_append]
    by_cases hlh : l < h
    · rw [above_cons_of_lt (by omega), hab, hab]
      exact hi.new l (Nat.zero_le l) hlh
    · rw [above_cons_of_le (by omega), hab, hab, ← above_append]
      exact hi.old l hl (.inr (Nat.not_lt.1 hlh))

/-- **`Insert` keeps the shape**, whatever the comparator answers. -/
theorem Woven.insert (hw : Woven s order) (hcmp : ∀ n ∈ s.nodes, ∃ c, cmp n.key key = .ok c)
    (h1 : 1 ≤ h) (h2 : h ≤ kSkipListNodeMaxLevel) :
    ∃ s' order', s.insert cmp key h = .ok s' ∧ SameShape (s.alloc key h) s' ∧ Woven s' order' := by
  have hcmp' : ∀ j ∈ order, ∃ k c, (s.alloc key h).keyAt j = .ok k ∧ cmp k key = .ok c := by
    intro j hj
    obtain ⟨n, hn, hkey⟩ := hw.exists_keyAt hj
    obtain ⟨c, hc⟩ := hcmp n hn
    refine ⟨n.key, c, ?_, hc⟩
    rw [← hkey]
    simp [keyAt, alloc, List.getElem?_append_left (hw.mem_iff.1 hj)]
  have hfuel : h + order.length < s.nodes.length + h + 1 := by
    have := hw.length_eq
    omega
  obtain ⟨s', front, back, ptr, hins, hsplit, hi⟩ :=
    Weaving.insertLoop (hw.fresh key h2) (List.nil_append order) hcmp' (hw.weaving cmp key h) hfuel
  subst hsplit
  exact ⟨s', _, hins, hi.shape, hw.of_weaving h1 hi⟩

end Insert

/-! ### Search, with any comparator -/

/-- **`FindFirstGreaterOrEqual` returns**, and what it finds is a key of the list. -/
theorem findLoop_returns {cmp : K → K → Exec ℤ} {key : K} (hw : Woven s order)
    (hcmp : ∀ n ∈ s.nodes, ∃ c, cmp n.key key = .ok c) {fuel l : ℕ} {front back : List ℕ}
    {ptr : Ptr} (hl : l < kSkipListNodeMaxLevel) (hsplit : front ++ back = order)
    (hst : Standing s (l + 1) front ptr) (hf : l + back.length < fuel) :
    ∃ r, findLoop cmp s key fuel ptr l = .ok r ∧ ∀ k, r = some k → ∃ n ∈ s.nodes, n.key = k := by
  induction fuel generalizing front back ptr l with
  | zero => omega
  | succ fuel ih =>
    subst hsplit
    have hb := hst.linked (hw.linked l hl)
    -- where the level has no smaller node, the descent goes on one level below
    have hdown : ∀ l', l = l' + 1 → ∃ r, findLoop cmp s key fuel ptr l' = .ok r ∧
        ∀ k, r = some k → ∃ n ∈ s.nodes, n.key = k := by
      rintro l' rfl
      exact ih (by omega) rfl (hst.mono (Nat.le_succ _)) (by omega)
    rw [findLoop.eq_def]
    cases hback : s.above l back with
    | nil =>
      rw [hback] at hb
      have hnext : s.getNNode ptr l = .ok none := hb
      simp only [hnext, Exec.ok_bind]
      cases l with
      | zero => exact ⟨none, rfl, fun k hk => by cases hk⟩
      | succ l' => exact hdown l' rfl
    | cons j b =>
      rw [hback] at hb
      have hnext : s.getNNode ptr l = .ok (some j) := hb.1
      obtain ⟨skip, rest, rfl, -, hj, -⟩ := above_eq_cons hback
      obtain ⟨n, hn, hkey⟩ := hw.exists_keyAt (i := j) (by simp)
      obtain ⟨c, hc⟩ := hcmp n hn
      have hfound : ∃ r, (.ok (some n.key) : Exec (Option K)) = .ok r ∧
          ∀ k, r = some k → ∃ n ∈ s.nodes, n.key = k :=
        ⟨some n.key, rfl, fun k hk => ⟨n, hn, Option.some.inj hk⟩⟩
      simp only [hnext, Exec.ok_bind, hkey, hc, Exec.pure_eq]
      split_ifs
      · have hst' : Standing s (l + 1) (front ++ skip ++ [j]) (.node j) :=
          .inr ⟨_, j, rfl, rfl, hj⟩
        refine ih hl (show front ++ skip ++ [j] ++ rest = _ by simp) hst' ?_
        simp only [List.length_append, List.length_cons] at hf
        omega
      · exact hfound
      · cases l with
        | zero => exact hfound
        | succ l' => exact hdown l' rfl

theorem Woven.find {cmp : K → K → Exec ℤ} {key : K} (hw : Woven s order)
    (hcmp : ∀ n ∈ s.nodes, ∃ c, cmp n.key key = .ok c) :
    ∃ r, s.findFirstGreaterOrEqual cmp key = .ok r ∧
      ∀ k, r = some k → ∃ n ∈ s.nodes, n.key = k := by
  refine findLoop_returns hw hcmp (by decide) (List.nil_append order) (.inl ⟨rfl, rfl⟩) ?_
  have := hw.length_eq
  simp only [kSkipListNodeMaxLevel]
  omega

/-! ### Histories -/

section Histories

variable {cmp : K → K → Exec ℤ} {D : K → Prop} {ins : List (K × ℕ)}

/-- Every history of insertions leads to a list of this shape, if the comparator answers. -/
theorem build_woven (hcmp : ∀ a b, D a → D b → ∃ c, cmp a b = .ok c) (hD : ∀ x ∈ ins, D x.1)
    (hh : ∀ x ∈ ins, 1 ≤ x.2 ∧ x.2 ≤ kSkipListNodeMaxLevel) :
    ∃ s order, build cmp ins = .ok s ∧ Woven s order ∧
      s.nodes.map (fun n => (n.key, n.next.length)) = ins := by
  induction ins using List.reverseRecOn with
  | nil => exact ⟨empty, [], rfl, woven_empty, rfl⟩
  | append_singleton ins x ih =>
    obtain ⟨s, order, hb, hw, hn⟩ := ih (fun y hy => hD y (List.mem_append_left _ hy))
      (fun y hy => hh y (List.mem_append_left _ hy))
    have hx := hh x (by simp)
    have hDn : ∀ n ∈ s.nodes, ∃ c, cmp n.key x.1 = .ok c := by
      intro n hn'
      have hmem : (n.key, n.next.length) ∈ ins := by
        rw [← hn]
        exact List.mem_map_of_mem hn'
      exact hcmp _ _ (hD _ (List.mem_append_left _ hmem)) (hD x (by simp))
    obtain ⟨s', order', hins, hsh, hw'⟩ := hw.insert hDn hx.1 hx.2
    refine ⟨s', order', ?_, hw', ?_⟩
    · rw [build, List.foldlM_append]
      rw [build] at hb
      simp [hb, hins]
    · rw [hsh.map_eq, alloc, List.map_append, hn]
      simp

/-- The nodes higher than a level, after the insertions `ins`. -/
theorem above_eq_filter (hn : s.nodes.map (fun n => (n.key, n.next.length)) = ins) (l : ℕ)
    (c : List ℕ) : s.above l c = c.filter fun i => (ins[i]?).any fun x => l < x.2 := by
  refine List.filter_congr fun i _ => ?_
  rw [← hn, List.getElem?_map, height]
  cases s.nodes[i]? with
  | none => rfl
  | some n => rfl

/-- **No comparator breaks the skip list.**  For every history of insertions, with equal keys too,
and for every comparator, ordered or not, that returns for the keys at hand: no assertion fails
and every loop ends.  The level 0 holds each inserted node once, every other level is the part of
it that is high enough, the iterator enumerates all keys, and every search returns, with a key that
was inserted or with none.  (The node `i` is the one of the `i`-th insertion.) -/
theorem build_for_any_comparator (hcmp : ∀ a b, D a → D b → ∃ c, cmp a b = .ok c)
    (hD : ∀ x ∈ ins, D x.1) (hh : ∀ x ∈ ins, 1 ≤ x.2 ∧ x.2 ≤ kSkipListNodeMaxLevel) :
    ∃ (s : SkipList K) (order : List ℕ), build cmp ins = .ok s ∧
      order.Perm (List.range ins.length) ∧
      (∀ l < kSkipListNodeMaxLevel,
        s.chain l = .ok (order.filter fun i => (ins[i]?).any fun x => l < x.2)) ∧
      (∃ ks, s.keys = .ok ks ∧ ks = order.filterMap (fun i => (ins[i]?).map Prod.fst) ∧
        ks.Perm (ins.map Prod.fst)) ∧
      ∀ key, D key → ∃ r, s.findFirstGreaterOrEqual cmp key = .ok r ∧
        ∀ k, r = some k → k ∈ ins.map Prod.fst := by
  obtain ⟨s, order, hb, hw, hn⟩ := build_woven hcmp hD hh
  have hlen : s.nodes.length = ins.length := by rw [← hn, List.length_map]
  have hkeys : s.nodes.map Node.key = ins.map Prod.fst := by rw [← hn, List.map_map]; rfl
  have hnode : ∀ n ∈ s.nodes, n.key ∈ ins.map Prod.fst := fun n hn' => by
    rw [← hkeys]
    exact List.mem_map_of_mem hn'
  refine ⟨s, order, hb, hlen ▸ hw.perm, ?_, ⟨_, hw.keys, ?_, hkeys ▸ hw.keys_perm⟩, ?_⟩
  · intro l hl
    rw [hw.chain hl, above_eq_filter hn]
  · refine List.filterMap_congr fun i _ => ?_
    rw [← hn, List.getElem?_map, Option.map_map]
    rfl
  · intro key hkey
    have hDn : ∀ n ∈ s.nodes, ∃ c, cmp n.key key = .ok c := by
      intro n hn'
      obtain ⟨x, hx, he⟩ := List.mem_map.1 (hnode n hn')
      exact hcmp _ _ (he ▸ hD x hx) hkey
    obtain ⟨r, hr, hmem⟩ := hw.find hDn
    refine ⟨r, hr, fun k hk => ?_⟩
    obtain ⟨n, hn', rfl⟩ := hmem k hk
    exact hnode n hn'

/-- A comparator that puts every key in front of every other one, and three equal keys. -/
theorem build_for_any_comparator_always_smaller :
    ∃ (s : SkipList ℕ) (order : List ℕ),
      build (fun _ _ => .ok (-1)) [(7, 2), (7, 1), (7, 3)] = .ok s ∧ order.Perm (List.range 3) ∧
      s.chain 1 = .ok (order.filter fun i =>
        (([(7, 2), (7, 1), (7, 3)] : List (ℕ × ℕ))[i]?).any fun x => 1 < x.2) := by
  have hcmp : ∀ a b : ℕ, True → True → ∃ c, (fun _ _ => .ok (-1) : ℕ → ℕ → Exec ℤ) a b = .ok c :=
    fun _ _ _ _ => ⟨-1, rfl⟩
  have hh : ∀ x ∈ ([(7, 2), (7, 1), (7, 3)] : List (ℕ × ℕ)),
      1 ≤ x.2 ∧ x.2 ≤ kSkipListNodeMaxLevel := by
    decide
  obtain ⟨s, order, hb, hperm, hchain, -⟩ :=
    build_for_any_comparator hcmp (fun _ _ => trivial) hh
  exact ⟨s, order, hb, hperm, hchain 1 (by decide)⟩

end Histories

/-! ### The destructor -/

/-- `cur->get_n_node(0)`, while the nodes `deleted` are gone. -/
def liveNext (s : SkipList K) (deleted : List ℕ) (cur : ℕ) : Exec (Option ℕ) :=
  if cur ∈ deleted then .error .nullptr else s.getNNode (.node cur) 0

/-- `delete cur`. -/
def deleteNode (s : SkipList K) (deleted : List ℕ) (cur : ℕ) : Exec (List ℕ) :=
  if cur < s.nodes.length ∧ cur ∉ deleted then .ok (deleted ++ [cur]) else .error .nullptr

/-- The loop of `~SkipList`. -/
def destroyLoop (s : SkipList K) : ℕ → List ℕ → Option ℕ → Exec (List ℕ)
  | _, deleted, none => .ok deleted
  | 0, _, some _ => .error .diverges
  | fuel + 1, deleted, some cur => do
    let next ← s.liveNext deleted cur
    let deleted ← s.deleteNode deleted cur
    destroyLoop s fuel deleted next

/-- `SkipList::~SkipList`: the nodes that have been deleted, in this order.  The dummy node and
the comparator come after them; no link leads there. -/
def destroy (s : SkipList K) : Exec (List ℕ) := do
  let cur ← s.getNNode .head 0
  s.destroyLoop s.nodes.length [] cur

/-- What is linked after `p` is deleted node by node. -/
theorem destroyLoop_eq {p : Ptr} {is deleted : List ℕ} {cur : Option ℕ} {fuel : ℕ}
    (h : s.Linked 0 p is) (hcur : s.getNNode p 0 = .ok cur) (hnd : (deleted ++ is).Nodup)
    (hlt : ∀ i ∈ is, i < s.nodes.length) (hf : is.length ≤ fuel) :
    s.destroyLoop fuel deleted cur = .ok (deleted ++ is) := by
  induction is generalizing p deleted cur fuel with
  | nil =>
    have hp : s.getNNode p 0 = .ok none := h
    rw [hp] at hcur
    cases hcur
    rw [destroyLoop, List.append_nil]
  | cons i is ih =>
    rw [h.1] at hcur
    cases hcur
    obtain ⟨f, rfl⟩ := Nat.exists_eq_succ_of_ne_zero (n := fuel) (by
      simp only [List.length_cons] at hf
      omega)
    have hi : i ∉ deleted := fun hmem =>
      (List.nodup_append.1 hnd).2.2 i hmem i List.mem_cons_self rfl
    obtain ⟨next, hnext⟩ := h.2.exists_getNNode
    have hsplit : deleted ++ i :: is = deleted ++ [i] ++ is := by simp
    simp only [destroyLoop, liveNext, hi, ↓reduceIte, hnext, Exec.ok_bind, deleteNode,
      hlt i List.mem_cons_self, not_false_eq_true, and_self]
    rw [hsplit]
    exact ih h.2 hnext (hsplit ▸ hnd) (fun j hj => hlt j (List.mem_cons_of_mem _ hj))
      (Nat.le_of_succ_le_succ hf)

theorem Woven.destroy (hw : Woven s order) : s.destroy = .ok order := by
  obtain ⟨cur, hcur⟩ := hw.linked_zero.exists_getNNode
  rw [SkipList.destroy, hcur, Exec.ok_bind]
  exact destroyLoop_eq hw.linked_zero hcur hw.nodup (fun i hi => hw.mem_iff.1 hi)
    (Nat.le_of_eq hw.length_eq)

/-- **The destructor deletes each node once.**  After every history of insertions, with any keys
and heights and with every comparator that returns for them, `~SkipList` ends: it reads no node
that it has deleted, deletes none twice, and has deleted all in the end. -/
theorem destroy_deletes_each_node_once {cmp : K → K → Exec ℤ} {D : K → Prop}
    {ins : List (K × ℕ)} (hcmp : ∀ a b, D a → D b → ∃ c, cmp a b = .ok c) (hD : ∀ x ∈ ins, D x.1)
    (hh : ∀ x ∈ ins, 1 ≤ x.2 ∧ x.2 ≤ kSkipListNodeMaxLevel) :
    ∃ s deleted, build cmp ins = .ok s ∧ s.destroy = .ok deleted ∧ deleted.Nodup ∧
      ∀ i, i ∈ deleted ↔ i < s.nodes.length := by
  obtain ⟨s, order, hb, hw, -⟩ := build_woven hcmp hD hh
  exact ⟨s, order, hb, hw.destroy, hw.nodup, fun i => hw.mem_iff⟩

/-- Three equal keys, with the comparator that says so. -/
theorem destroy_deletes_each_node_once_equal_keys : ∃ (s : SkipList ℕ) (deleted : List ℕ),
    build (fun _ _ => .ok 0) [(7, 2), (7, 1), (7, 3)] = .ok s ∧ s.destroy = .ok deleted ∧
      deleted.Nodup ∧ ∀ i, i ∈ deleted ↔ i < s.nodes.length :=
  destroy_deletes_each_node_once (D := fun _ => True) (fun _ _ _ _ => ⟨0, rfl⟩)
    (fun _ _ => trivial) (by decide)

end SkipList

end KoishiDB
