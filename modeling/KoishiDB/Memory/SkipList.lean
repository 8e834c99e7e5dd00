import KoishiDB.Common
import KoishiDB.Base.Order

/-!
# The skip list

`memory/skiplist.h`.  Nodes live in a heap and are named by their allocation number; the dummy
node `head_` is apart, since it has no key and no link leads to it.  The height of a node is drawn
at random when it is made; here it is an argument of `insert`.

`Insert` descends from the top level of the *new* node and links while it descends.
`FindFirstGreaterOrEqual` starts at the top level of the head and stops early at an equal key.
Both are loops that follow links, so the model gives them a bound; that the bound is enough, and
that no assertion fails, is part of the theorems about them (`KoishiDB.Memory.SkipListInv`).
-/

namespace KoishiDB

/-- A node: its key and, for each level below its height, the node after it on that level. -/
structure Node (K : Type) where
  /-- The key of the node. -/
  key : K
  /-- The links; there are as many as the height. -/
  next : List (Option ℕ)
deriving Repr, DecidableEq

/-- A pointer to the dummy node or to an allocated node. -/
inductive Ptr where
  | head
  | node (i : ℕ)
deriving Repr, DecidableEq

/-- A skip list: the links of the dummy node, and the allocated nodes. -/
structure SkipList (K : Type) where
  /-- The links of `head_`. -/
  head : List (Option ℕ)
  /-- The nodes, in the order of allocation. -/
  nodes : List (Node K)
deriving Repr, DecidableEq

/-- The loop of `RandomHeight` with the coins `rand() % 2` that it draws, at most `n` of them. -/
def randomHeightLoop (rand : ℕ → ℕ) : ℕ → ℕ → ℕ
  | 0, height => height
  | n + 1, height => if rand height % 2 = 0 then randomHeightLoop rand n (height + 1) else height

/-- `RandomHeight`. -/
def randomHeight (rand : ℕ → ℕ) : ℕ := randomHeightLoop rand (kSkipListNodeMaxLevel - 1) 1

namespace SkipList

variable {K : Type}

/-- The constructor: a dummy node without links. -/
def empty : SkipList K := ⟨List.replicate kSkipListNodeMaxLevel none, []⟩

/-- The links of the node that a pointer leads to. -/
def links (s : SkipList K) : Ptr → Exec (List (Option ℕ))
  | .head => .ok s.head
  | .node i => match s.nodes[i]? with
    | some n => .ok n.next
    | none => .error .nullptr

/-- Replace the links of the node that a pointer leads to. -/
def setLinks (s : SkipList K) (p : Ptr) (next : List (Option ℕ)) : SkipList K :=
  match p with
  | .head => { s with head := next }
  | .node i => { s with nodes := s.nodes.modify i fun n => { n with next := next } }

/-- `Node::get_n_node`. -/
def getNNode (s : SkipList K) (p : Ptr) (n : ℕ) : Exec (Option ℕ) := do
  let next ← s.links p
  match next[n]? with
  | some q => return q
  | none => throw (.assertion "n < level")

/-- `Node::set_n_node`. -/
def setNNode (s : SkipList K) (p : Ptr) (n : ℕ) (q : Option ℕ) : Exec (SkipList K) := do
  let next ← s.links p
  Exec.require (n < next.length) "n < level"
  return s.setLinks p (next.set n q)

/-- `Node::Key`. -/
def keyAt (s : SkipList K) (i : ℕ) : Exec K :=
  match s.nodes[i]? with
  | some n => .ok n.key
  | none => .error .nullptr

/-- The test `next_ptr != nullptr && cmp_->Compare(next_ptr->Key(), memtable_key) < 0`; the
result is the node to move on to. -/
def smallerNext (cmp : K → K → Exec ℤ) (s : SkipList K) (nextPtr : Option ℕ) (key : K) :
    Exec (Option ℕ) :=
  match nextPtr with
  | none => .ok none
  | some j => do
    let k ← s.keyAt j
    let c ← cmp k key
    return if c < 0 then some j else none

/-- The loop of `Insert`; `level` is `cur_level + 1`. -/
def insertLoop (cmp : K → K → Exec ℤ) (key : K) (newNode : ℕ) :
    ℕ → SkipList K → Ptr → ℕ → Exec (SkipList K)
  | 0, _, _, _ => .error .diverges
  | _ + 1, s, _, 0 => .ok s
  | fuel + 1, s, ptr, curLevel + 1 => do
    let nextPtr ← s.getNNode ptr curLevel
    match ← smallerNext cmp s nextPtr key with
    | some j => insertLoop cmp key newNode fuel s (.node j) (curLevel + 1)
    | none =>
      let s ← s.setNNode ptr curLevel (some newNode)
      let s ← s.setNNode (.node newNode) curLevel nextPtr
      insertLoop cmp key newNode fuel s ptr curLevel

/-- `SkipList::Insert` of a node of the given height. -/
def insert (cmp : K → K → Exec ℤ) (s : SkipList K) (key : K) (height : ℕ) : Exec (SkipList K) :=
  let newNode := s.nodes.length
  let s' := { s with nodes := s.nodes ++ [⟨key, List.replicate height none⟩] }
  insertLoop cmp key newNode (newNode + height + 1) s' .head height

/-- The loop of `FindFirstGreaterOrEqual`. -/
def findLoop (cmp : K → K → Exec ℤ) (s : SkipList K) (key : K) : ℕ → Ptr → ℕ → Exec (Option K)
  | 0, _, _ => .error .diverges
  | fuel + 1, ptr, curLevel => do
    let nextPtr ← s.getNNode ptr curLevel
    match nextPtr with
    | some j =>
      let k ← s.keyAt j
      let c ← cmp k key
      if c < 0 then findLoop cmp s key fuel (.node j) curLevel
      else if c = 0 then return some k
      else match curLevel with
        | 0 => return some k
        | l + 1 => findLoop cmp s key fuel ptr l
    | none =>
      match curLevel with
      | 0 => return none
      | l + 1 => findLoop cmp s key fuel ptr l

/-- `SkipList::FindFirstGreaterOrEqual`; `none` is the result `false`. -/
def findFirstGreaterOrEqual (cmp : K → K → Exec ℤ) (s : SkipList K) (key : K) :
    Exec (Option K) :=
  findLoop cmp s key (s.nodes.length + kSkipListNodeMaxLevel) .head (kSkipListNodeMaxLevel - 1)

/-! ### The iterator -/

/-- `SkipList::Iterator`: the current node, null at the end. -/
structure Iterator where
  /-- The pointer `node_`. -/
  node : Option ℕ
deriving Repr, DecidableEq

namespace Iterator

/-- The constructor: the first node of level 0. -/
def make (s : SkipList K) : Exec Iterator := do
  let node ← s.getNNode .head 0
  return ⟨node⟩

/-- `Iterator::Valid`. -/
def valid (it : Iterator) : Bool := it.node.isSome

/-- `Iterator::Key`. -/
def key (it : Iterator) (s : SkipList K) : Exec K :=
  match it.node with
  | some i => s.keyAt i
  | none => .error .nullptr

/-- `Iterator::operator++`. -/
def next (it : Iterator) (s : SkipList K) : Exec Iterator :=
  match it.node with
  | some i => do
    let node ← s.getNNode (.node i) 0
    return ⟨node⟩
  | none => .error .nullptr

/-- The keys from the current position on, as a loop over the iterator reads them. -/
def collect (s : SkipList K) : ℕ → Iterator → Exec (List K)
  | 0, _ => .error .diverges
  | fuel + 1, it =>
    if it.valid then do
      let k ← it.key s
      let it ← it.next s
      let ks ← collect s fuel it
      return k :: ks
    else return []

end Iterator

/-- The keys that an iterator enumerates. -/
def keys (s : SkipList K) : Exec (List K) := do
  let it ← Iterator.make s
  it.collect s (s.nodes.length + 1)

/-- The nodes linked on level `l`, from a pointer on. -/
def chainFrom (s : SkipList K) (l : ℕ) : ℕ → Ptr → Exec (List ℕ)
  | 0, _ => .error .diverges
  | fuel + 1, p => do
    match ← s.getNNode p l with
    | none => return []
    | some i =>
      let is ← chainFrom s l fuel (.node i)
      return i :: is

/-- The nodes linked on level `l`, in order. -/
def chain (s : SkipList K) (l : ℕ) : Exec (List ℕ) := s.chainFrom l (s.nodes.length + 1) .head

end SkipList

/-- `RandomHeight` returns a height from 1 to `kSkipListNodeMaxLevel`. -/
theorem randomHeight_mem (rand : ℕ → ℕ) :
    1 ≤ randomHeight rand ∧ randomHeight rand ≤ kSkipListNodeMaxLevel := by
  have key : ∀ n h, h ≤ randomHeightLoop rand n h ∧ randomHeightLoop rand n h ≤ h + n := by
    intro n
    induction n with
    | zero => intro h; simp [randomHeightLoop]
    | succ n ih =>
      intro h
      simp only [randomHeightLoop]
      split
      · have := ih (h + 1); omega
      · omega
  have := key (kSkipListNodeMaxLevel - 1) 1
  unfold randomHeight
  simp only [kSkipListNodeMaxLevel] at *
  omega

end KoishiDB
