import ForkscanRegistry.Avl.Invariant

/-
Module: ForkscanRegistry.Avl.Textbook
Layer: Refinement
Purpose: `insert_node` picks its rotation by comparing the inserted key with the heavy child's
  key. The textbook rule picks it by the heights of the heavy child's subtrees: a single rotation
  when the child leans the same way as its parent, a double rotation otherwise. `textbookInsert`
  is the same descent with the textbook rule. On every valid tree and for every key the two
  compute the same tree, heights and marks included: a child that makes its parent too tall has
  just grown from the insertion, so it leans towards the key (`InsertShape.leans`), and the key
  comparison reads the lean correctly.
Trusted boundary: none
Main exports: AvlNode.leansLeft, AvlNode.leansRight, textbookRebalance, textbookInsert,
  rebalance_eq_textbook, insertNode_textbook
-/

namespace ForkscanRegistry.Avl

open AvlNode

/-- The subtree's left child is taller than its right one. -/
def AvlNode.leansLeft : AvlNode → Bool
  | null => false
  | node _ _ _ left right => right.height < left.height

/-- The subtree's right child is taller than its left one. -/
def AvlNode.leansRight : AvlNode → Bool
  | null => false
  | node _ _ _ left right => left.height < right.height

/-- The textbook rebalancing step on the node whose child an insertion replaced: the height
becomes `1 + max` of the children's heights; when one child is two taller than the other, rotate
once if that child leans the same way as the node and twice otherwise. -/
def textbookRebalance : AvlNode → Option AvlNode
  | null => none
  | node k _ m left right =>
      let h := 1 + max left.height right.height
      if right.height + 1 < left.height then
        if left.leansLeft then rightRotate (node k h m left right)
        else do
          let left' ← leftRotate left
          rightRotate (node k h m left' right)
      else if left.height + 1 < right.height then
        if right.leansRight then leftRotate (node k h m left right)
        else do
          let right' ← rightRotate right
          leftRotate (node k h m left right')
      else some (node k h m left right)

/-- The lean of a subtree read off `get_balance`. -/
theorem AvlNode.leansLeft_iff (t : AvlNode) : t.leansLeft ↔ 0 < getBalance t := by
  cases t with
  | null => simp [AvlNode.leansLeft, getBalance]
  | node => simp only [AvlNode.leansLeft, getBalance_node, decide_eq_true_eq]; omega

theorem AvlNode.leansRight_iff (t : AvlNode) : t.leansRight ↔ getBalance t < 0 := by
  cases t with
  | null => simp [AvlNode.leansRight, getBalance]
  | node => simp only [AvlNode.leansRight, getBalance_node, decide_eq_true_eq]; omega

/-- The textbook AVL insertion: the descent and the duplicate case of `insert_node`, with
`textbookRebalance` on the way back up. -/
def textbookInsert : AvlNode → Nat → Option (AvlNode × Bool)
  | null, key => some (newNode key, true)
  | node k h m left right, key =>
      if key < k then do
        let (left', inserted) ← textbookInsert left key
        let node' ← textbookRebalance (node k h m left' right)
        pure (node', inserted)
      else if key > k then do
        let (right', inserted) ← textbookInsert right key
        let node' ← textbookRebalance (node k h m left right')
        pure (node', inserted)
      else some (node k h m left right, false)

/-- The two rules agree on a node whenever a child that is two taller than its sibling holds a
key other than `key`, and `key` lies on the side that child leans to. -/
theorem rebalance_eq_textbook {key k h : Nat} {m : Bool} {l r : AvlNode}
    (leftHeavy : r.height + 1 < l.height → key ≠ l.key ∧ (key < l.key ↔ l.leansLeft))
    (rightHeavy : l.height + 1 < r.height → key ≠ r.key ∧ (r.key < key ↔ r.leansRight)) :
    rebalance key (node k h m l r) = textbookRebalance (node k h m l r) := by
  simp only [rebalance, textbookRebalance, getBalance_node, maxInt_eq_max]
  by_cases heavyL : r.height + 1 < l.height
  · -- left-heavy: the first or the third pattern of `insert_node`, as the lean says
    obtain ⟨differ, lean⟩ := leftHeavy heavyL
    have tall : (l.height : Int) - r.height > 1 := by omega
    have notTallR : ¬ (l.height : Int) - r.height < -1 := by omega
    rw [if_pos heavyL]
    rcases Nat.lt_or_gt_of_ne differ with below | above
    · rw [if_pos (And.intro tall below), if_pos (lean.mp below)]
    · rw [if_neg fun c : _ ∧ _ => Nat.lt_asymm above c.2, if_neg fun c : _ ∧ _ => notTallR c.1,
        if_pos (And.intro tall above), if_neg fun leans => Nat.lt_asymm above (lean.mpr leans)]
  · have notTallL : ¬ (l.height : Int) - r.height > 1 := by omega
    rw [if_neg fun c : _ ∧ _ => notTallL c.1, if_neg heavyL]
    by_cases heavyR : l.height + 1 < r.height
    · -- right-heavy: the second or the fourth pattern
      obtain ⟨differ, lean⟩ := rightHeavy heavyR
      have tall : (l.height : Int) - r.height < -1 := by omega
      rw [if_pos heavyR]
      rcases Nat.lt_or_gt_of_ne differ with below | above
      · rw [if_neg fun c : _ ∧ _ => Nat.lt_asymm below c.2, if_neg fun c : _ ∧ _ => notTallL c.1,
          if_pos (And.intro tall below), if_neg fun leans => Nat.lt_asymm below (lean.mpr leans)]
      · rw [if_pos (And.intro tall above), if_pos (lean.mp above)]
    · -- in range: no rotation under either rule
      have notTallR : ¬ (l.height : Int) - r.height < -1 := by omega
      rw [if_neg fun c : _ ∧ _ => notTallR c.1, if_neg fun c : _ ∧ _ => notTallL c.1,
        if_neg fun c : _ ∧ _ => notTallR c.1, if_neg heavyR]

/-- A child that an insertion made two taller than its sibling has just grown, so it leans
towards the key: the key is not the child's key, and lies below it exactly when the child leans
left and above it exactly when the child leans right. -/
theorem InsertShape.lean_of_heavy {key other : Nat} {c c' : AvlNode} (shape : InsertShape key c c')
    (fits : c.height ≤ other + 1) (heavy : other + 1 < c'.height) :
    key ≠ c'.key ∧ (key < c'.key ↔ c'.leansLeft) ∧ (c'.key < key ↔ c'.leansRight) := by
  have le := shape.height_le
  have grew : c'.height = c.height + 1 := by omega
  have present : c ≠ null := by rintro rfl; simp at grew; omega
  obtain ⟨sameKey, differ, leftLeans, rightLeans⟩ := shape.leans present grew
  rw [sameKey, leansLeft_iff, leansRight_iff]
  refine ⟨differ, ⟨fun below => by omega, fun leans => ?_⟩,
    ⟨fun above => by omega, fun leans => ?_⟩⟩
  · rcases Nat.lt_or_gt_of_ne differ with below | above
    · exact below
    · have := rightLeans above
      omega
  · rcases Nat.lt_or_gt_of_ne differ with below | above
    · have := leftLeans below
      omega
    · exact above

/-- On every tree with exact heights whose subtrees differ in height by at most one at every node,
`insert_node` computes the same result as the textbook insertion, for every key. -/
theorem insertNode_eq_textbookInsert (key : Nat) : ∀ {t : AvlNode}, t.HeightsExact → t.Balanced →
    insertNode t key = textbookInsert t key
  | null, _, _ => rfl
  | node k h m l r, exact, balanced => by
      obtain ⟨-, lExact, rExact⟩ := exact
      obtain ⟨low, high, lBalanced, rBalanced⟩ := (balanced_node ..).mp balanced
      rcases lt_trichotomy key k with lt | rfl | gt
      · obtain ⟨l', inserted, inserts, shape⟩ := insertNode_shape key lExact lBalanced
        have agree : rebalance key (node k h m l' r) = textbookRebalance (node k h m l' r) :=
          rebalance_eq_textbook (fun heavy => (shape.lean_of_heavy low heavy).imp_right And.left)
            fun heavy => absurd heavy (by have := shape.height_ge; omega)
        rw [insertNode, textbookInsert, if_pos lt, if_pos lt,
          ← insertNode_eq_textbookInsert key lExact lBalanced, inserts]
        simp only [bind, Option.bind, agree]
      · simp [insertNode, textbookInsert]
      · obtain ⟨r', inserted, inserts, shape⟩ := insertNode_shape key rExact rBalanced
        have agree : rebalance key (node k h m l r') = textbookRebalance (node k h m l r') :=
          rebalance_eq_textbook (fun heavy => absurd heavy (by have := shape.height_ge; omega))
            fun heavy => (shape.lean_of_heavy high heavy).imp_right And.right
        have notBelow : ¬ key < k := Nat.not_lt.mpr gt.le
        rw [insertNode, textbookInsert, if_neg notBelow, if_neg notBelow, if_pos gt, if_pos gt,
          ← insertNode_eq_textbookInsert key rExact rBalanced, inserts]
        simp only [bind, Option.bind, agree]

/-- For every tree satisfying the AVL invariant and every key, `insert_node` returns the tree
the textbook insertion returns, shape, keys, height fields and marks alike, and never
dereferences a NULL child: whichever rotation the balance factor calls for is the one its key
comparison selects. -/
theorem insertNode_textbook (t : AvlNode) (key : Nat) (valid : AvlInvariant t) :
    insertNode t key = textbookInsert t key ∧ (insertNode t key).isSome := by
  obtain ⟨t', inserted, inserts, -⟩ := insertNode_shape key valid.heightsExact valid.balanced
  exact ⟨insertNode_eq_textbookInsert key valid.heightsExact valid.balanced, by simp [inserts]⟩

/-- Inserting 3 below the right-leaning `1 → 2` calls for a left rotation at the root. -/
theorem insertNode_textbook_rotates :
    AvlInvariant (node 1 2 false null (newNode 2)) ∧
      insertNode (node 1 2 false null (newNode 2)) 3 =
        textbookInsert (node 1 2 false null (newNode 2)) 3 :=
  have valid : AvlInvariant (node 1 2 false null (newNode 2)) :=
    ⟨by unfold Ordered; decide, by simp [newNode], by simp [newNode]⟩
  ⟨valid, (insertNode_textbook _ 3 valid).1⟩

end ForkscanRegistry.Avl
