import ForkscanRegistry.Avl.Node

/-
Module: ForkscanRegistry.Avl.Tree
Layer: Model
Purpose: The recursive operations of `avl.c` (`insert_node`, `contains_node`, `mark_node`) and
  the public API over `avl_tree_t` (`avl_create`, `avl_insert`, `avl_contains`, `avl_mark`,
  `avl_build_from_array`, `avl_inorder`). Out-parameters (`int *inserted`, `int *found`) become a
  second component of the result. `insert_node` is fallible only through the rotations it calls,
  so it returns `Option`; `contains_node` and `mark_node` never dereference NULL and are total.
Trusted boundary: none
Main exports: rebalance, insertNode, containsNode, markNode, AvlTree, avlCreate, avlInsert,
  avlContains, avlMark, avlBuildFromArray, avlInorder, AvlCall, runCalls
-/

namespace ForkscanRegistry.Avl

open AvlNode

/-- Lines 78–96 of `insert_node`, run on the node whose child the recursive call replaced: store
`1 + max_int` of the children's heights, read the balance factor, and try the four rotation
patterns in source order, each selected by comparing `key` with the heavy child's key. A double
rotation first relinks the heavy child, then rotates the node, whose height field is still the one
stored at line 78. -/
def rebalance (key : Nat) : AvlNode → Option AvlNode
  | null => none
  | node k _ m left right =>
      let h := 1 + maxInt left.height right.height
      let balance := getBalance (node k h m left right)
      if balance > 1 ∧ key < left.key then rightRotate (node k h m left right)
      else if balance < -1 ∧ key > right.key then leftRotate (node k h m left right)
      else if balance > 1 ∧ key > left.key then do
        let left' ← leftRotate left
        rightRotate (node k h m left' right)
      else if balance < -1 ∧ key < right.key then do
        let right' ← rightRotate right
        leftRotate (node k h m left right')
      else some (node k h m left right)

/-- `insert_node(node, key, &inserted)`: the rebuilt subtree and the final value of `inserted`
(1 as `true`). An equal key returns the node untouched with `inserted = 0`. -/
def insertNode : AvlNode → Nat → Option (AvlNode × Bool)
  | null, key => some (newNode key, true)
  | node k h m left right, key =>
      if key < k then do
        let (left', inserted) ← insertNode left key
        let node' ← rebalance key (node k h m left' right)
        pure (node', inserted)
      else if key > k then do
        let (right', inserted) ← insertNode right key
        let node' ← rebalance key (node k h m left right')
        pure (node', inserted)
      else some (node k h m left right, false)

@[simp] theorem insertNode_self (k h : Nat) (m : Bool) (left right : AvlNode) :
    insertNode (node k h m left right) k = some (node k h m left right, false) := by
  simp [insertNode]

/-- The left descent of `insert_node` as one inversion: the recursive call succeeded and the
rebalancing of its result did. -/
theorem insertNode_eq_some_of_lt {key k h : Nat} {m inserted : Bool} {left right t' : AvlNode}
    (below : key < k) :
    insertNode (node k h m left right) key = some (t', inserted) ↔
      ∃ left', insertNode left key = some (left', inserted) ∧
        rebalance key (node k h m left' right) = some t' := by
  rw [insertNode, if_pos below]
  simp only [bind, Option.bind_eq_some, Option.some.injEq, pure]
  constructor
  · rintro ⟨⟨left', inserted'⟩, inserts, t'', rebalances, same⟩
    cases same
    exact ⟨left', inserts, rebalances⟩
  · rintro ⟨left', inserts, rebalances⟩
    exact ⟨(left', inserted), inserts, t', rebalances, rfl⟩

theorem insertNode_eq_some_of_gt {key k h : Nat} {m inserted : Bool} {left right t' : AvlNode}
    (above : k < key) :
    insertNode (node k h m left right) key = some (t', inserted) ↔
      ∃ right', insertNode right key = some (right', inserted) ∧
        rebalance key (node k h m left right') = some t' := by
  rw [insertNode, if_neg (Nat.not_lt.mpr above.le), if_pos above]
  simp only [bind, Option.bind_eq_some, Option.some.injEq, pure]
  constructor
  · rintro ⟨⟨right', inserted'⟩, inserts, t'', rebalances, same⟩
    cases same
    exact ⟨right', inserts, rebalances⟩
  · rintro ⟨right', inserts, rebalances⟩
    exact ⟨(right', inserted), inserts, t', rebalances, rfl⟩

/-- `contains_node(node, key)`, 1 as `true`. -/
def containsNode : AvlNode → Nat → Bool
  | null, _ => false
  | node k _ _ left right, key =>
      if key = k then true
      else if key < k then containsNode left key
      else containsNode right key

/-- `mark_node(node, key, &found)`: the tree after the in-place flag update, and whether `found`
was set. The flag is written only when it is still 0. -/
def markNode : AvlNode → Nat → AvlNode × Bool
  | null, _ => (null, false)
  | node k h m left right, key =>
      if key = k then (node k h (if !m then true else m) left right, true)
      else if key < k then
        let (left', found) := markNode left key
        (node k h m left' right, found)
      else
        let (right', found) := markNode right key
        (node k h m left right', found)

@[simp] theorem markNode_self (k h : Nat) (m : Bool) (left right : AvlNode) :
    markNode (node k h m left right) k = (node k h true left right, true) := by
  cases m <;> simp [markNode]

theorem markNode_of_lt {key k h : Nat} {m : Bool} {left right : AvlNode} (below : key < k) :
    markNode (node k h m left right) key =
      (node k h m (markNode left key).1 right, (markNode left key).2) := by
  rw [markNode, if_neg (Nat.ne_of_lt below), if_pos below]

theorem markNode_of_gt {key k h : Nat} {m : Bool} {left right : AvlNode} (above : k < key) :
    markNode (node k h m left right) key =
      (node k h m left (markNode right key).1, (markNode right key).2) := by
  rw [markNode, if_neg (Nat.ne_of_gt above), if_neg (Nat.not_lt.mpr above.le)]

@[simp] theorem containsNode_self (k h : Nat) (m : Bool) (left right : AvlNode) :
    containsNode (node k h m left right) k = true := by
  simp [containsNode]

theorem containsNode_of_lt {key k h : Nat} {m : Bool} {left right : AvlNode} (below : key < k) :
    containsNode (node k h m left right) key = containsNode left key := by
  rw [containsNode, if_neg (Nat.ne_of_lt below), if_pos below]

theorem containsNode_of_gt {key k h : Nat} {m : Bool} {left right : AvlNode} (above : k < key) :
    containsNode (node k h m left right) key = containsNode right key := by
  rw [containsNode, if_neg (Nat.ne_of_gt above), if_neg (Nat.not_lt.mpr above.le)]

/-- `avl_tree_t`: the registry handle, a pointer to the root. -/
structure AvlTree where
  root : AvlNode
deriving Repr, DecidableEq

/-- `avl_create()`: an empty tree. Allocation failure exits the process and is not modelled. -/
def avlCreate : AvlTree := ⟨null⟩

/-- `avl_insert(tree, key)`: the updated tree and the returned `inserted` flag. -/
def avlInsert (tree : AvlTree) (key : Nat) : Option (AvlTree × Bool) := do
  let (root, inserted) ← insertNode tree.root key
  pure (⟨root⟩, inserted)

/-- `avl_contains(tree, key)`. -/
def avlContains (tree : AvlTree) (key : Nat) : Bool := containsNode tree.root key

/-- `avl_mark(tree, key)`: the updated tree and the returned `found` flag. -/
def avlMark (tree : AvlTree) (key : Nat) : AvlTree × Bool :=
  let (root, found) := markNode tree.root key
  (⟨root⟩, found)

/-- `avl_build_from_array(keys, n)`, with `keys` the list `keys[0..n)`: one `avl_insert` per
element in array order, results ignored. -/
def avlBuildFromArray (keys : List Nat) : Option AvlTree :=
  keys.foldlM (fun tree key => (avlInsert tree key).map Prod.fst) avlCreate

/-- `avl_inorder(tree, f, data)`, observed through the `(key, marked)` pairs it hands to `f`. -/
def avlInorder (tree : AvlTree) : List (Nat × Bool) := tree.root.inorder

/-- A call a client makes on an existing tree: the two mutating operations of `avl.h`. -/
inductive AvlCall where
  | insert (key : Nat)
  | mark (key : Nat)
deriving Repr, DecidableEq

/-- One call's effect on the tree; the returned flags are dropped. -/
def applyCall (tree : AvlTree) : AvlCall → Option AvlTree
  | .insert key => (avlInsert tree key).map Prod.fst
  | .mark key => some (avlMark tree key).1

/-- A sequence of calls applied in order; `none` as soon as one of them would fault. -/
def runCalls (tree : AvlTree) (calls : List AvlCall) : Option AvlTree :=
  calls.foldlM applyCall tree

@[simp] theorem runCalls_nil (tree : AvlTree) : runCalls tree [] = some tree := rfl

@[simp] theorem runCalls_cons (tree : AvlTree) (call : AvlCall) (calls : List AvlCall) :
    runCalls tree (call :: calls) = (applyCall tree call).bind (runCalls · calls) := rfl

/-- Building from an array is running one insert call per element. -/
theorem avlBuildFromArray_eq_runCalls (keys : List Nat) :
    avlBuildFromArray keys = runCalls avlCreate (keys.map .insert) := by
  unfold avlBuildFromArray runCalls
  generalize avlCreate = tree
  induction keys generalizing tree with
  | nil => rfl
  | cons key keys ih =>
      simp only [List.foldlM_cons, List.map_cons, applyCall, ih]

end ForkscanRegistry.Avl
