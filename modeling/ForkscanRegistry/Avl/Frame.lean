import ForkscanRegistry.Avl.Refinement

/-
Module: ForkscanRegistry.Avl.Frame
Layer: Proofs
Purpose: What the two mutating calls of the ordered registry leave alone. `avl_insert` of a key
  that a valid tree already holds rebuilds the whole search path on the way back up, rewriting
  every height field and testing every balance factor, and still returns the tree node for node
  with `inserted = 0`: each height it writes is the one stored, and no balance factor is out of
  range. `avl_mark` on an ordered tree returns `withMark`, the tree with the flag of the node
  holding the key set to 1 and every other field of every node as it was; it reports whether the
  key is present, changes nothing for an absent key, and a second call changes nothing.
Trusted boundary: none
Main exports: insertNode_of_mem, avlInsert_present, withMark, markNode_eq_withMark, avlMark_frame
-/

namespace ForkscanRegistry.Avl

open AvlNode

/-! ### `avl_insert` of a present key -/

/-- `insert_node` on a key of a valid subtree returns the subtree itself with `inserted = 0`:
below the node holding the key nothing is visited, and above it every rebalancing step finds its
children unchanged, so it writes the stored height and fires no rotation. -/
theorem insertNode_of_mem {key : Nat} : ∀ {t : AvlNode}, AvlInvariant t → key ∈ t.keys →
    insertNode t key = some (t, false)
  | null, _, absent => by simp [keys] at absent
  | node k h m l r, valid, present => by
      obtain ⟨lOrdered, rOrdered, below, above⟩ := ordered_node_iff.mp valid.ordered
      obtain ⟨heights, lExact, rExact⟩ := valid.heightsExact
      obtain ⟨low, high, lBalanced, rBalanced⟩ := (balanced_node ..).mp valid.balanced
      have keeps : rebalance key (node k h m l r) = some (node k h m l r) := by
        rw [rebalance_of_fits low high, heights]
      rw [keys_node, List.mem_append, List.mem_cons] at present
      rcases lt_trichotomy key k with lt | rfl | gt
      · -- the key sits in the left subtree
        have inLeft : key ∈ l.keys := present.resolve_right fun
          | .inl same => absurd same (Nat.ne_of_lt lt)
          | .inr mem => absurd (above key mem) (Nat.lt_asymm lt)
        exact (insertNode_eq_some_of_lt lt).mpr
          ⟨l, insertNode_of_mem ⟨lOrdered, lExact, lBalanced⟩ inLeft, keeps⟩
      · exact insertNode_self key h m l r
      · -- the key sits in the right subtree
        have inRight : key ∈ r.keys := by
          rcases present with mem | same | mem
          · exact absurd (below key mem) (Nat.lt_asymm gt)
          · exact absurd same (Nat.ne_of_gt gt)
          · exact mem
        exact (insertNode_eq_some_of_gt gt).mpr
          ⟨r, insertNode_of_mem ⟨rOrdered, rExact, rBalanced⟩ inRight, keeps⟩

/-- `avl_insert(tree, key)` with `key` already in the valid tree returns 0 and leaves the tree
identical node for node: the same root, shape, keys, height fields and marked flags. -/
theorem avlInsert_present (tree : AvlTree) (key : Nat) (valid : AvlInvariant tree.root)
    (present : key ∈ tree.root.keys) : avlInsert tree key = some (tree, false) := by
  simp [avlInsert, insertNode_of_mem valid present]

theorem avlInsert_present_leaf :
    AvlInvariant (node 2 2 false (newNode 1) (newNode 3)) ∧
      3 ∈ (node 2 2 false (newNode 1) (newNode 3)).keys ∧
      avlInsert ⟨node 2 2 false (newNode 1) (newNode 3)⟩ 3 =
        some (⟨node 2 2 false (newNode 1) (newNode 3)⟩, false) :=
  have valid : AvlInvariant (node 2 2 false (newNode 1) (newNode 3)) :=
    ⟨by unfold Ordered; decide, by simp [newNode], by simp [newNode]⟩
  ⟨valid, by decide, avlInsert_present ⟨_⟩ 3 valid (by decide)⟩

/-! ### `avl_mark` -/

/-- The tree `avl_mark(t, key)` is to leave: every node keeps its key, height field and
children, and its marked flag becomes 1 if it holds `key` and stays as it was otherwise. -/
def withMark (key : Nat) : AvlNode → AvlNode
  | null => null
  | node k h m l r => node k h (m || k == key) (withMark key l) (withMark key r)

theorem inorder_withMark (key : Nat) (t : AvlNode) :
    (withMark key t).inorder = t.inorder.map fun e => (e.1, e.2 || e.1 == key) := by
  induction t with
  | null => rfl
  | node k h m l r ihl ihr => simp [withMark, ihl, ihr]

theorem keys_withMark (key : Nat) (t : AvlNode) : (withMark key t).keys = t.keys := by
  simp [keys, inorder_withMark, Function.comp_def]

/-- A key the tree does not hold sets no flag anywhere. -/
theorem withMark_of_not_mem {key : Nat} : ∀ {t : AvlNode}, key ∉ t.keys → withMark key t = t
  | null, _ => rfl
  | node k h m l r, absent => by
      simp only [keys_node, List.mem_append, List.mem_cons, not_or] at absent
      obtain ⟨notLeft, notHere, notRight⟩ := absent
      simp [withMark, withMark_of_not_mem notLeft, withMark_of_not_mem notRight, Ne.symm notHere]

theorem withMark_withMark (key : Nat) (t : AvlNode) :
    withMark key (withMark key t) = withMark key t := by
  induction t with
  | null => rfl
  | node k h m l r ihl ihr => simp [withMark, ihl, ihr]

/-- On an ordered tree `mark_node` is `withMark`, and it reports whether the key is present. -/
theorem markNode_eq_withMark {key : Nat} : ∀ {t : AvlNode}, t.Ordered →
    markNode t key = (withMark key t, decide (key ∈ t.keys))
  | null, _ => by simp [markNode, withMark, keys]
  | node k h m l r, ordered => by
      obtain ⟨lOrdered, rOrdered, below, above⟩ := ordered_node_iff.mp ordered
      have notLeft : k ≤ key → key ∉ l.keys := fun ge mem => absurd (below key mem) (by omega)
      have notRight : key ≤ k → key ∉ r.keys := fun le mem => absurd (above key mem) (by omega)
      rcases lt_trichotomy key k with lt | rfl | gt
      · rw [markNode_of_lt lt, markNode_eq_withMark lOrdered]
        simp [withMark, withMark_of_not_mem (notRight lt.le), keys_node, notRight lt.le,
          Nat.ne_of_lt lt, Nat.ne_of_gt lt]
      · simp [withMark, withMark_of_not_mem (notLeft le_rfl), withMark_of_not_mem (notRight le_rfl),
          keys_node]
      · rw [markNode_of_gt gt, markNode_eq_withMark rOrdered]
        simp [withMark, withMark_of_not_mem (notLeft gt.le), keys_node, notLeft gt.le,
          Nat.ne_of_lt gt, Nat.ne_of_gt gt]

/-- `avl_mark(tree, key)` on a tree with strictly increasing in-order keys returns 1 exactly when
`key` is a key of the tree, and leaves the tree equal to it but for the marked flag of the node
holding `key`, which is 1: shape, keys, height fields and every other flag stay, no flag goes from
1 to 0, nothing changes for an absent key, and a second `avl_mark(., key)` changes nothing. -/
theorem avlMark_frame (tree : AvlTree) (key : Nat) (ordered : tree.root.Ordered) :
    avlMark tree key = (⟨withMark key tree.root⟩, decide (key ∈ tree.root.keys)) ∧
      avlInorder (avlMark tree key).1 =
        (avlInorder tree).map (fun e => (e.1, e.2 || e.1 == key)) ∧
      (key ∉ tree.root.keys → (avlMark tree key).1 = tree) ∧
      avlMark (avlMark tree key).1 key = avlMark tree key := by
  have marks : avlMark tree key = (⟨withMark key tree.root⟩, decide (key ∈ tree.root.keys)) := by
    simp [avlMark, markNode_eq_withMark ordered]
  have ordered' : (withMark key tree.root).Ordered := by
    rw [Ordered, keys_withMark]
    exact ordered
  refine ⟨marks, ?_, fun absent => ?_, ?_⟩
  · rw [marks]
    exact inorder_withMark key tree.root
  · rw [marks, withMark_of_not_mem absent]
  · rw [marks]
    simp [avlMark, markNode_eq_withMark ordered', withMark_withMark, keys_withMark]

theorem avlMark_frame_present :
    (node 2 2 false (newNode 1) (newNode 3)).Ordered ∧
      avlMark ⟨node 2 2 false (newNode 1) (newNode 3)⟩ 3 =
        (⟨withMark 3 (node 2 2 false (newNode 1) (newNode 3))⟩, true) :=
  have ordered : (node 2 2 false (newNode 1) (newNode 3)).Ordered := by unfold Ordered; decide
  ⟨ordered, (avlMark_frame ⟨_⟩ 3 ordered).1⟩

end ForkscanRegistry.Avl
