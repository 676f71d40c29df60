import ForkscanRegistry.Avl.Tree
import Mathlib.Data.List.Sort

/-
Module: ForkscanRegistry.Avl.Invariant
Layer: Proofs
Purpose: The AVL representation invariant of `avl.c` and its preservation by `insert_node` and
  `mark_node`. The invariant has three parts: strictly increasing in-order keys (`Ordered`),
  stored heights equal to true heights (`HeightsExact`) and, at every node, subtree heights that
  differ by at most one (`Balanced`). The shape half is proved here, for every key and every tree,
  by one induction whose step is `rebalance_shape_left` / `rebalance_shape_right`. The code picks
  a rotation by comparing the key with the heavy child's key rather than by the child's balance
  factor; the two agree because a subtree whose height grew keeps its root and leans towards the
  inserted key (`InsertShape.leans`), which is carried through the induction.
Trusted boundary: none
Main exports: AvlNode.HeightsExact, AvlNode.Balanced, AvlNode.Ordered, AvlInvariant,
  InsertShape, insertNode_shape, markNode_heightsExact, markNode_balanced
-/

namespace ForkscanRegistry.Avl

open AvlNode

namespace AvlNode

/-- Every stored height field is `1 + max` of the children's stored heights (NULL counting 0),
so it is the node's true height. -/
def HeightsExact : AvlNode → Prop
  | null => True
  | node _ h _ left right =>
      h = 1 + max left.height right.height ∧ left.HeightsExact ∧ right.HeightsExact

/-- At every node the heights of the two subtrees differ by at most one. -/
def Balanced : AvlNode → Prop
  | null => True
  | node _ _ _ left right =>
      left.height ≤ right.height + 1 ∧ right.height ≤ left.height + 1 ∧
        left.Balanced ∧ right.Balanced

/-- The in-order key sequence is strictly increasing. -/
def Ordered (t : AvlNode) : Prop := t.keys.Sorted (· < ·)

@[simp] theorem heightsExact_null : null.HeightsExact := trivial
@[simp] theorem heightsExact_node (k h : Nat) (m : Bool) (l r : AvlNode) :
    (node k h m l r).HeightsExact ↔
      h = 1 + max l.height r.height ∧ l.HeightsExact ∧ r.HeightsExact := Iff.rfl
@[simp] theorem balanced_null : null.Balanced := trivial
@[simp] theorem balanced_node (k h : Nat) (m : Bool) (l r : AvlNode) :
    (node k h m l r).Balanced ↔
      l.height ≤ r.height + 1 ∧ r.height ≤ l.height + 1 ∧ l.Balanced ∧ r.Balanced := Iff.rfl

end AvlNode

/-- The AVL representation invariant: (a) ordered keys, (b) exact heights, (c) balance. -/
structure AvlInvariant (t : AvlNode) : Prop where
  ordered : t.Ordered
  heightsExact : t.HeightsExact
  balanced : t.Balanced

/-! ### The four rotation patterns of `insert_node`, and the case where none fires -/

/-- A balance factor in {-1, 0, 1} selects no rotation: the node keeps its children and only
its height field is rewritten. -/
theorem rebalance_of_fits {key k h : Nat} {m : Bool} {l r : AvlNode}
    (low : l.height ≤ r.height + 1) (high : r.height ≤ l.height + 1) :
    rebalance key (node k h m l r) = some (node k (1 + max l.height r.height) m l r) := by
  simp only [rebalance, getBalance_node, maxInt_eq_max]
  rw [if_neg (by omega), if_neg (by omega), if_neg (by omega), if_neg (by omega)]

theorem rebalance_left_single {key k h lk lh : Nat} {m lm : Bool} {a b r : AvlNode}
    (tall : lh = r.height + 2) (below : key < lk) :
    rebalance key (node k h m (node lk lh lm a b) r) =
      some (node lk (max a.height (max b.height r.height + 1) + 1) lm a
        (node k (max b.height r.height + 1) m b r)) := by
  simp only [rebalance, getBalance_node, height_node, key_node, maxInt_eq_max]
  rw [if_pos (by omega)]
  simp only [rightRotate_node_node]

theorem rebalance_left_double {key k h lk lh bk bh : Nat} {m lm bm : Bool}
    {a b1 b2 r : AvlNode} (tall : lh = r.height + 2) (above : lk < key) :
    rebalance key (node k h m (node lk lh lm a (node bk bh bm b1 b2)) r) =
      some (node bk (max (max a.height b1.height + 1) (max b2.height r.height + 1) + 1) bm
        (node lk (max a.height b1.height + 1) lm a b1)
        (node k (max b2.height r.height + 1) m b2 r)) := by
  simp only [rebalance, getBalance_node, height_node, key_node, maxInt_eq_max]
  rw [if_neg (by omega), if_neg (by omega), if_pos (by omega)]
  simp only [leftRotate_node_node, Option.bind_eq_bind, Option.some_bind, rightRotate_node_node,
    height_node]

theorem rebalance_right_single {key k h rk rh : Nat} {m rm : Bool} {l a b : AvlNode}
    (tall : rh = l.height + 2) (above : rk < key) :
    rebalance key (node k h m l (node rk rh rm a b)) =
      some (node rk (max (max l.height a.height + 1) b.height + 1) rm
        (node k (max l.height a.height + 1) m l a) b) := by
  simp only [rebalance, getBalance_node, height_node, key_node, maxInt_eq_max]
  rw [if_neg (by omega), if_pos (by omega)]
  simp only [leftRotate_node_node]

theorem rebalance_right_double {key k h rk rh bk bh : Nat} {m rm bm : Bool}
    {l b1 b2 c : AvlNode} (tall : rh = l.height + 2) (below : key < rk) :
    rebalance key (node k h m l (node rk rh rm (node bk bh bm b1 b2) c)) =
      some (node bk (max (max l.height b1.height + 1) (max b2.height c.height + 1) + 1) bm
        (node k (max l.height b1.height + 1) m l b1)
        (node rk (max b2.height c.height + 1) rm b2 c)) := by
  simp only [rebalance, getBalance_node, height_node, key_node, maxInt_eq_max]
  rw [if_neg (by omega), if_neg (by omega), if_neg (by omega), if_pos (by omega)]
  simp only [rightRotate_node_node, Option.bind_eq_bind, Option.some_bind,
    leftRotate_node_node, height_node]

/-! ### What one insertion does to a subtree's shape -/

/-- The shape facts an insertion of `key` into the valid subtree `t` establishes for its result
`t'`. `leans` is the induction's strengthening: when the height grew, no rotation happened at the
root, and the root's balance factor points to the side the key went to. -/
structure InsertShape (key : Nat) (t t' : AvlNode) : Prop where
  heightsExact : t'.HeightsExact
  balanced : t'.Balanced
  height_ge : t.height ≤ t'.height
  height_le : t'.height ≤ t.height + 1
  leans : t ≠ null → t'.height = t.height + 1 →
    t'.key = t.key ∧ key ≠ t.key ∧ (key < t.key → getBalance t' = 1) ∧
      (t.key < key → getBalance t' = -1)

/-- A valid result of the same height satisfies the shape facts. -/
theorem InsertShape.of_height_eq {key : Nat} {t t' : AvlNode} (exact : t'.HeightsExact)
    (balanced : t'.Balanced) (same : t'.height = t.height) : InsertShape key t t' :=
  ⟨exact, balanced, same.ge, by omega, fun _ grew => by omega⟩

/-- A node over valid children whose heights differ by at most one, carrying the height field
`max_int(..) + 1` that the rotations store, is valid. -/
theorem rotated_valid (k : Nat) (m : Bool) {l r : AvlNode} (lExact : l.HeightsExact)
    (rExact : r.HeightsExact) (lBalanced : l.Balanced) (rBalanced : r.Balanced)
    (low : l.height ≤ r.height + 1) (high : r.height ≤ l.height + 1) :
    (node k (max l.height r.height + 1) m l r).HeightsExact ∧
      (node k (max l.height r.height + 1) m l r).Balanced :=
  ⟨⟨by omega, lExact, rExact⟩, (balanced_node ..).mpr ⟨low, high, lBalanced, rBalanced⟩⟩

/-- Left-left case: the left child grew to two above the right one and leans left; the single
right rotation gives a valid tree of the node's height before the insertion. -/
theorem InsertShape.rotateRight {key k lk lh : Nat} {m lm : Bool} {l a b r : AvlNode}
    (exact : (node lk lh lm a b).HeightsExact) (balanced : (node lk lh lm a b).Balanced)
    (rExact : r.HeightsExact) (rBalanced : r.Balanced) (tall : lh = r.height + 2)
    (grew : lh = l.height + 1) (leans : getBalance (node lk lh lm a b) = 1) :
    InsertShape key (node k (1 + max l.height r.height) m l r)
      (node lk (max a.height (max b.height r.height + 1) + 1) lm a
        (node k (max b.height r.height + 1) m b r)) := by
  obtain ⟨heights, aExact, bExact⟩ := exact
  obtain ⟨-, -, aBalanced, bBalanced⟩ := (balanced_node ..).mp balanced
  rw [getBalance_node] at leans
  have inner := rotated_valid k m bExact rExact bBalanced rBalanced (by omega) (by omega)
  have outer := rotated_valid lk lm aExact inner.1 aBalanced inner.2
    (by simp only [height_node]; omega) (by simp only [height_node]; omega)
  exact .of_height_eq outer.1 outer.2 (by simp only [height_node]; omega)

/-- Left-right case: the left child grew to two above the right one and leans right; the double
rotation gives a valid tree of the node's height before the insertion. -/
theorem InsertShape.rotateLeftRight {key k lk lh bk bh : Nat} {m lm bm : Bool}
    {l a b1 b2 r : AvlNode} (exact : (node lk lh lm a (node bk bh bm b1 b2)).HeightsExact)
    (balanced : (node lk lh lm a (node bk bh bm b1 b2)).Balanced) (rExact : r.HeightsExact)
    (rBalanced : r.Balanced) (tall : lh = r.height + 2) (grew : lh = l.height + 1)
    (leans : getBalance (node lk lh lm a (node bk bh bm b1 b2)) = -1) :
    InsertShape key (node k (1 + max l.height r.height) m l r)
      (node bk (max (max a.height b1.height + 1) (max b2.height r.height + 1) + 1) bm
        (node lk (max a.height b1.height + 1) lm a b1)
        (node k (max b2.height r.height + 1) m b2 r)) := by
  obtain ⟨heights, aExact, innerHeights, b1Exact, b2Exact⟩ := exact
  obtain ⟨-, -, aBalanced, inner⟩ := (balanced_node ..).mp balanced
  obtain ⟨low, high, b1Balanced, b2Balanced⟩ := (balanced_node ..).mp inner
  simp only [getBalance_node, height_node] at leans heights
  have level : a.height = r.height ∧ l.height = r.height + 1 ∧ b1.height ≤ r.height ∧
      b2.height ≤ r.height ∧ r.height ≤ b1.height + 1 ∧ r.height ≤ b2.height + 1 := by omega
  clear heights innerHeights leans tall grew low high
  have left := rotated_valid lk lm aExact b1Exact aBalanced b1Balanced (by omega) (by omega)
  have right := rotated_valid k m b2Exact rExact b2Balanced rBalanced (by omega) (by omega)
  have outer := rotated_valid bk bm left.1 right.1 left.2 right.2
    (by simp only [height_node]; omega) (by simp only [height_node]; omega)
  exact .of_height_eq outer.1 outer.2 (by simp only [height_node]; omega)

/-- Right-right case, the mirror image of `InsertShape.rotateRight`. -/
theorem InsertShape.rotateLeft {key k rk rh : Nat} {m rm : Bool} {l r a b : AvlNode}
    (exact : (node rk rh rm a b).HeightsExact) (balanced : (node rk rh rm a b).Balanced)
    (lExact : l.HeightsExact) (lBalanced : l.Balanced) (tall : rh = l.height + 2)
    (grew : rh = r.height + 1) (leans : getBalance (node rk rh rm a b) = -1) :
    InsertShape key (node k (1 + max l.height r.height) m l r)
      (node rk (max (max l.height a.height + 1) b.height + 1) rm
        (node k (max l.height a.height + 1) m l a) b) := by
  obtain ⟨heights, aExact, bExact⟩ := exact
  obtain ⟨-, -, aBalanced, bBalanced⟩ := (balanced_node ..).mp balanced
  rw [getBalance_node] at leans
  have inner := rotated_valid k m lExact aExact lBalanced aBalanced (by omega) (by omega)
  have outer := rotated_valid rk rm inner.1 bExact inner.2 bBalanced
    (by simp only [height_node]; omega) (by simp only [height_node]; omega)
  exact .of_height_eq outer.1 outer.2 (by simp only [height_node]; omega)

/-- Right-left case, the mirror image of `InsertShape.rotateLeftRight`. -/
theorem InsertShape.rotateRightLeft {key k rk rh bk bh : Nat} {m rm bm : Bool}
    {l r b1 b2 c : AvlNode} (exact : (node rk rh rm (node bk bh bm b1 b2) c).HeightsExact)
    (balanced : (node rk rh rm (node bk bh bm b1 b2) c).Balanced) (lExact : l.HeightsExact)
    (lBalanced : l.Balanced) (tall : rh = l.height + 2) (grew : rh = r.height + 1)
    (leans : getBalance (node rk rh rm (node bk bh bm b1 b2) c) = 1) :
    InsertShape key (node k (1 + max l.height r.height) m l r)
      (node bk (max (max l.height b1.height + 1) (max b2.height c.height + 1) + 1) bm
        (node k (max l.height b1.height + 1) m l b1)
        (node rk (max b2.height c.height + 1) rm b2 c)) := by
  obtain ⟨heights, ⟨innerHeights, b1Exact, b2Exact⟩, cExact⟩ := exact
  obtain ⟨-, -, inner, cBalanced⟩ := (balanced_node ..).mp balanced
  obtain ⟨low, high, b1Balanced, b2Balanced⟩ := (balanced_node ..).mp inner
  simp only [getBalance_node, height_node] at leans heights
  have level : c.height = l.height ∧ r.height = l.height + 1 ∧ b1.height ≤ l.height ∧
      b2.height ≤ l.height ∧ l.height ≤ b1.height + 1 ∧ l.height ≤ b2.height + 1 := by omega
  clear heights innerHeights leans tall grew low high
  have left := rotated_valid k m lExact b1Exact lBalanced b1Balanced (by omega) (by omega)
  have right := rotated_valid rk rm b2Exact cExact b2Balanced cBalanced (by omega) (by omega)
  have outer := rotated_valid bk bm left.1 right.1 left.2 right.2
    (by simp only [height_node]; omega) (by simp only [height_node]; omega)
  exact .of_height_eq outer.1 outer.2 (by simp only [height_node]; omega)

/-- Inserting into the left child of a valid node: either the node fits (no rotation) or the
left child is two taller than the right, grew from the insertion, and leans to one side, which
the key comparison reads correctly. -/
theorem rebalance_shape_left {key k h : Nat} {m : Bool} {l r l' : AvlNode}
    (exact : (node k h m l r).HeightsExact) (balanced : (node k h m l r).Balanced)
    (below : key < k) (shape : InsertShape key l l') :
    ∃ t', rebalance key (node k h m l' r) = some t' ∧ InsertShape key (node k h m l r) t' := by
  simp only [heightsExact_node, balanced_node] at exact balanced
  obtain ⟨rfl, -, rExact⟩ := exact
  obtain ⟨low, high, -, rBalanced⟩ := balanced
  have ge := shape.height_ge
  have le := shape.height_le
  by_cases fits : l'.height ≤ r.height + 1
  · refine ⟨_, rebalance_of_fits fits (by omega), ⟨⟨rfl, shape.heightsExact, rExact⟩,
      (balanced_node ..).mpr ⟨fits, by omega, shape.balanced, rBalanced⟩, ?_, ?_,
      fun _ grew => ?_⟩⟩
    · simp only [height_node]; omega
    · simp only [height_node]; omega
    · simp only [height_node] at grew
      refine ⟨rfl, ?_, ?_, ?_⟩ <;> simp only [key_node, getBalance_node] <;> omega
  · have grew : l'.height = l.height + 1 := by omega
    have present : l ≠ null := by rintro rfl; simp at grew; omega
    obtain ⟨sameKey, keyNe, leftLeans, rightLeans⟩ := shape.leans present grew
    cases l' with
    | null => simp at grew
    | node lk lh lm a b =>
        simp only [height_node, key_node] at grew fits sameKey
        subst sameKey
        rcases Nat.lt_or_gt_of_ne keyNe with lt | gt
        · exact ⟨_, rebalance_left_single (by omega) lt, .rotateRight shape.heightsExact
            shape.balanced rExact rBalanced (by omega) grew (leftLeans lt)⟩
        · have lean := rightLeans gt
          cases b with
          | null => simp at lean
          | node bk bh bm b1 b2 =>
              exact ⟨_, rebalance_left_double (by omega) gt, .rotateLeftRight shape.heightsExact
                shape.balanced rExact rBalanced (by omega) grew lean⟩

/-- The mirror image of `rebalance_shape_left`, for an insertion into the right child. -/
theorem rebalance_shape_right {key k h : Nat} {m : Bool} {l r r' : AvlNode}
    (exact : (node k h m l r).HeightsExact) (balanced : (node k h m l r).Balanced)
    (above : k < key) (shape : InsertShape key r r') :
    ∃ t', rebalance key (node k h m l r') = some t' ∧ InsertShape key (node k h m l r) t' := by
  simp only [heightsExact_node, balanced_node] at exact balanced
  obtain ⟨rfl, lExact, -⟩ := exact
  obtain ⟨low, high, lBalanced, -⟩ := balanced
  have ge := shape.height_ge
  have le := shape.height_le
  by_cases fits : r'.height ≤ l.height + 1
  · refine ⟨_, rebalance_of_fits (by omega) fits, ⟨⟨rfl, lExact, shape.heightsExact⟩,
      (balanced_node ..).mpr ⟨by omega, fits, lBalanced, shape.balanced⟩, ?_, ?_,
      fun _ grew => ?_⟩⟩
    · simp only [height_node]; omega
    · simp only [height_node]; omega
    · simp only [height_node] at grew
      refine ⟨rfl, ?_, ?_, ?_⟩ <;> simp only [key_node, getBalance_node] <;> omega
  · have grew : r'.height = r.height + 1 := by omega
    have present : r ≠ null := by rintro rfl; simp at grew; omega
    obtain ⟨sameKey, keyNe, leftLeans, rightLeans⟩ := shape.leans present grew
    cases r' with
    | null => simp at grew
    | node rk rh rm a b =>
        simp only [height_node, key_node] at grew fits sameKey
        subst sameKey
        rcases Nat.lt_or_gt_of_ne keyNe with lt | gt
        · have lean := leftLeans lt
          cases a with
          | null => simp at lean; omega
          | node bk bh bm b1 b2 =>
              exact ⟨_, rebalance_right_double (by omega) lt, .rotateRightLeft shape.heightsExact
                shape.balanced lExact lBalanced (by omega) grew lean⟩
        · exact ⟨_, rebalance_right_single (by omega) gt, .rotateLeft shape.heightsExact
            shape.balanced lExact lBalanced (by omega) grew (rightLeans gt)⟩

/-- `insert_node` never faults on a tree whose heights are exact and whose balance factors are
in range, and its result satisfies the shape facts, for every key. -/
theorem insertNode_shape (key : Nat) : ∀ {t : AvlNode}, t.HeightsExact → t.Balanced →
    ∃ t' inserted, insertNode t key = some (t', inserted) ∧ InsertShape key t t'
  | null, _, _ => ⟨newNode key, true, rfl,
      ⟨by simp [newNode], by simp [newNode], by simp, by simp [newNode],
        fun absurd => absurd rfl |>.elim⟩⟩
  | node k h m l r, exact, balanced => by
      have children := And.intro exact.2 ((balanced_node ..).mp balanced).2.2
      rcases lt_trichotomy key k with lt | rfl | gt
      · obtain ⟨l', inserted, inserts, shape⟩ := insertNode_shape key children.1.1 children.2.1
        obtain ⟨t', rebalances, shape'⟩ := rebalance_shape_left exact balanced lt shape
        exact ⟨t', inserted, by simp [insertNode, lt, inserts, rebalances], shape'⟩
      · exact ⟨_, false, by simp [insertNode], .of_height_eq exact balanced rfl⟩
      · obtain ⟨r', inserted, inserts, shape⟩ := insertNode_shape key children.1.2 children.2.2
        obtain ⟨t', rebalances, shape'⟩ := rebalance_shape_right exact balanced gt shape
        exact ⟨t', inserted, by simp [insertNode, Nat.not_lt.mpr gt.le, gt, inserts, rebalances],
          shape'⟩

/-! ### `mark_node` writes one flag and nothing else -/

@[simp] theorem markNode_height (key : Nat) : ∀ t : AvlNode, (markNode t key).1.height = t.height
  | null => rfl
  | node k h m l r => by simp only [markNode]; split_ifs <;> rfl

theorem markNode_keys (key : Nat) : ∀ t : AvlNode, (markNode t key).1.keys = t.keys
  | null => rfl
  | node k h m l r => by
      simp only [markNode]
      split_ifs <;> simp [keys_node, markNode_keys key l, markNode_keys key r]

theorem markNode_heightsExact (key : Nat) : ∀ {t : AvlNode}, t.HeightsExact →
    (markNode t key).1.HeightsExact
  | null, _ => trivial
  | node k h m l r, ⟨eq, left, right⟩ => by
      rcases lt_trichotomy key k with lt | rfl | gt
      · rw [markNode_of_lt lt]
        exact ⟨by simpa using eq, markNode_heightsExact key left, right⟩
      · rw [markNode_self]
        exact ⟨eq, left, right⟩
      · rw [markNode_of_gt gt]
        exact ⟨by simpa using eq, left, markNode_heightsExact key right⟩

theorem markNode_balanced (key : Nat) : ∀ {t : AvlNode}, t.Balanced → (markNode t key).1.Balanced
  | null, _ => trivial
  | node k h m l r, balanced => by
      obtain ⟨low, high, left, right⟩ := (balanced_node ..).mp balanced
      rcases lt_trichotomy key k with lt | rfl | gt
      · rw [markNode_of_lt lt]
        exact (balanced_node ..).mpr ⟨by simpa using low, by simpa using high,
          markNode_balanced key left, right⟩
      · rw [markNode_self]
        exact (balanced_node ..).mpr ⟨low, high, left, right⟩
      · rw [markNode_of_gt gt]
        exact (balanced_node ..).mpr ⟨by simpa using low, by simpa using high, left,
          markNode_balanced key right⟩

end ForkscanRegistry.Avl
