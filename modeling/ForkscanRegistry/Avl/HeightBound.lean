import ForkscanRegistry.Avl.Refinement
import Mathlib.Analysis.SpecialFunctions.Log.Base
import Mathlib.Data.Nat.Fib.Basic

/-
Module: ForkscanRegistry.Avl.HeightBound
Layer: Proofs
Purpose: Why the recursion of `avl.c` is shallow and its `int` height fields cannot overflow. A
  tree with exact heights and balance factors in {-1, 0, 1} of height `h` has at least
  `Fib (h + 2) - 1` nodes (the minimal AVL trees are Fibonacci trees). With the rational lower bound
  `1.61803 ^ n ≤ Fib (n + 2)` this gives `h ≤ 1.4405 · log₂ (N + 2)`; the descent of
  `insert_node`, `contains_node` and `mark_node` makes at most `h` nested calls (each function with
  a call counter computes the function and `descentDepth`); and since `Fib 94 > 2 ^ 64`, fewer than
  `2 ^ 64` nodes keep every stored height below 94.
Trusted boundary: none
Main exports: descentDepth, containsNodeCounted_eq, markNodeCounted_eq, insertNodeCounted_eq,
  AvlNode.AllHeightsBelow, fib_height_le_size, avl_height_logarithmic
-/

namespace ForkscanRegistry.Avl

open AvlNode

/-- How many nested recursive calls `contains_node(node, key)` makes before it returns: one for
each node whose key differs from `key`. `insert_node` and `mark_node` compare `key` with each
node's key in the same way and descend into the same child, so this is their recursion depth
too. -/
def descentDepth : AvlNode → Nat → Nat
  | null, _ => 0
  | node k _ _ left right, key =>
      if key = k then 0
      else if key < k then 1 + descentDepth left key
      else 1 + descentDepth right key

/-! ### The depth of each recursion

Each function below is one of `contains_node`, `mark_node` and `insert_node` with a counter of the
nested calls it makes, raised by one where the source recurses. Each computes the code's function,
and its count is `descentDepth`. -/

/-- `contains_node(node, key)` and the number of nested calls it makes. -/
def containsNodeCounted : AvlNode → Nat → Bool × Nat
  | null, _ => (false, 0)
  | node k _ _ left right, key =>
      if key = k then (true, 0)
      else if key < k then
        let (found, calls) := containsNodeCounted left key
        (found, calls + 1)
      else
        let (found, calls) := containsNodeCounted right key
        (found, calls + 1)

/-- `mark_node(node, key, &found)` and the number of nested calls it makes. -/
def markNodeCounted : AvlNode → Nat → (AvlNode × Bool) × Nat
  | null, _ => ((null, false), 0)
  | node k h m left right, key =>
      if key = k then ((node k h (if !m then true else m) left right, true), 0)
      else if key < k then
        let ((left', found), calls) := markNodeCounted left key
        ((node k h m left' right, found), calls + 1)
      else
        let ((right', found), calls) := markNodeCounted right key
        ((node k h m left right', found), calls + 1)

/-- `insert_node(node, key, &inserted)` and the number of nested calls it makes. -/
def insertNodeCounted : AvlNode → Nat → Option (AvlNode × Bool) × Nat
  | null, key => (some (newNode key, true), 0)
  | node k h m left right, key =>
      if key < k then
        let (result, calls) := insertNodeCounted left key
        (do
          let (left', inserted) ← result
          let node' ← rebalance key (node k h m left' right)
          pure (node', inserted), calls + 1)
      else if key > k then
        let (result, calls) := insertNodeCounted right key
        (do
          let (right', inserted) ← result
          let node' ← rebalance key (node k h m left right')
          pure (node', inserted), calls + 1)
      else (some (node k h m left right, false), 0)

theorem containsNodeCounted_eq (key : Nat) : ∀ t : AvlNode,
    containsNodeCounted t key = (containsNode t key, descentDepth t key)
  | null => rfl
  | node k h m left right => by
      rw [containsNodeCounted, containsNode, descentDepth, containsNodeCounted_eq key left,
        containsNodeCounted_eq key right]
      split_ifs <;> simp only [Nat.add_comm]

theorem markNodeCounted_eq (key : Nat) : ∀ t : AvlNode,
    markNodeCounted t key = (markNode t key, descentDepth t key)
  | null => rfl
  | node k h m left right => by
      rw [markNodeCounted, markNode, descentDepth, markNodeCounted_eq key left,
        markNodeCounted_eq key right]
      split_ifs <;> simp only [Nat.add_comm]

theorem insertNodeCounted_eq (key : Nat) : ∀ t : AvlNode,
    insertNodeCounted t key = (insertNode t key, descentDepth t key)
  | null => rfl
  | node k h m left right => by
      rw [insertNodeCounted, insertNode, descentDepth, insertNodeCounted_eq key left,
        insertNodeCounted_eq key right]
      rcases lt_trichotomy key k with below | rfl | above
      · simp only [if_pos below, if_neg (Nat.ne_of_lt below), Nat.add_comm]
      · simp
      · simp only [if_neg (Nat.not_lt.mpr above.le), if_pos above, if_neg (Nat.ne_of_gt above),
          Nat.add_comm]

namespace AvlNode

/-- Every stored height field of the tree is below `bound`. -/
def AllHeightsBelow (bound : Nat) : AvlNode → Prop
  | null => True
  | node _ h _ left right => h < bound ∧ left.AllHeightsBelow bound ∧ right.AllHeightsBelow bound

end AvlNode

/-- The descent never goes deeper than the stored height when heights are exact. -/
theorem descentDepth_le_height (key : Nat) : ∀ {t : AvlNode}, t.HeightsExact →
    descentDepth t key ≤ t.height
  | null, _ => le_rfl
  | node k h m l r, ⟨exact, left, right⟩ => by
      subst exact
      have := descentDepth_le_height key left
      have := descentDepth_le_height key right
      simp only [descentDepth, height_node]
      split_ifs <;> omega

/-- With exact heights, no node below the root is taller than the root. -/
theorem allHeightsBelow_of_height_lt {bound : Nat} : ∀ {t : AvlNode}, t.HeightsExact →
    t.height < bound → t.AllHeightsBelow bound
  | null, _, _ => trivial
  | node k h m l r, ⟨exact, left, right⟩, below => by
      simp only [height_node] at below
      exact ⟨below, allHeightsBelow_of_height_lt left (by omega),
        allHeightsBelow_of_height_lt right (by omega)⟩

/-- The Fibonacci lower bound on the size of a balanced tree: `Fib (h + 2) ≤ N + 1`. -/
theorem fib_height_le_size : ∀ {t : AvlNode}, t.HeightsExact → t.Balanced →
    Nat.fib (t.height + 2) ≤ t.size + 1
  | null, _, _ => by simp
  | node k h m l r, ⟨exact, lExact, rExact⟩, balanced => by
      subst exact
      obtain ⟨low, high, lBalanced, rBalanced⟩ := (balanced_node ..).mp balanced
      have left := fib_height_le_size lExact lBalanced
      have right := fib_height_le_size rExact rBalanced
      simp only [height_node, size_node]
      rcases le_total l.height r.height with le | le
      · have shorter : Nat.fib (r.height + 1) ≤ Nat.fib (l.height + 2) := Nat.fib_mono (by omega)
        have step : Nat.fib (r.height + 3) = Nat.fib (r.height + 1) + Nat.fib (r.height + 2) :=
          Nat.fib_add_two
        rw [max_eq_right le, show 1 + r.height + 2 = r.height + 3 by omega, step]
        omega
      · have shorter : Nat.fib (l.height + 1) ≤ Nat.fib (r.height + 2) := Nat.fib_mono (by omega)
        have step : Nat.fib (l.height + 3) = Nat.fib (l.height + 1) + Nat.fib (l.height + 2) :=
          Nat.fib_add_two
        rw [max_eq_left le, show 1 + l.height + 2 = l.height + 3 by omega, step]
        omega

/-- `1.61803 ^ n ≤ Fib (n + 2)`, in integers: `1.61803² ≤ 1.61803 + 1` drives the induction. -/
theorem pow_le_fib : ∀ n : Nat, 161803 ^ n ≤ 100000 ^ n * Nat.fib (n + 2)
  | 0 => by simp
  | 1 => by simp [Nat.fib_add_two]
  | n + 2 => by
      have previous := pow_le_fib n
      have last := pow_le_fib (n + 1)
      have step : Nat.fib (n + 2 + 2) = Nat.fib (n + 2) + Nat.fib (n + 1 + 2) := Nat.fib_add_two
      calc 161803 ^ (n + 2) ≤ 10 ^ 10 * 161803 ^ n + 10 ^ 5 * 161803 ^ (n + 1) := by
            rw [pow_succ, pow_succ, pow_succ]; omega
        _ ≤ 10 ^ 10 * (100000 ^ n * Nat.fib (n + 2)) +
              10 ^ 5 * (100000 ^ (n + 1) * Nat.fib (n + 1 + 2)) := by gcongr
        _ = 100000 ^ (n + 2) * Nat.fib (n + 2 + 2) := by
            rw [step]; ring

/-- `2 ^ (84 h) ≤ (N + 1) ^ 121` for a balanced tree: the integer form of `h ≤ 121/84 · log₂`. -/
theorem two_pow_height_le (h N : Nat) (fib_le : Nat.fib (h + 2) ≤ N + 1) :
    2 ^ (84 * h) ≤ (N + 1) ^ 121 := by
  have base : 2 ^ 84 * 100000 ^ 121 ≤ 161803 ^ 121 := by decide
  have scaled : 161803 ^ h ≤ 100000 ^ h * (N + 1) :=
    (pow_le_fib h).trans (Nat.mul_le_mul_left _ fib_le)
  have raised : (161803 ^ 121) ^ h ≤ (100000 ^ 121) ^ h * (N + 1) ^ 121 := by
    have := Nat.pow_le_pow_left scaled 121
    rwa [mul_pow, ← pow_mul, ← pow_mul, mul_comm h 121, pow_mul, pow_mul] at this
  have lower : (2 ^ 84) ^ h * (100000 ^ 121) ^ h ≤ (161803 ^ 121) ^ h := by
    rw [← mul_pow]
    exact Nat.pow_le_pow_left base h
  rw [pow_mul]
  exact Nat.le_of_mul_le_mul_right ((lower.trans raised).trans_eq (mul_comm _ _)) (by positivity)

/-- The integer bound read as a logarithm, with `121/84 ≤ 1.4405`. -/
theorem height_le_logb {h N : Nat} (bound : 2 ^ (84 * h) ≤ (N + 1) ^ 121) :
    (h : ℝ) ≤ 1.4405 * Real.logb 2 (N + 2) := by
  have cast : ((2 ^ (84 * h) : ℕ) : ℝ) ≤ (((N + 1) ^ 121 : ℕ) : ℝ) := Nat.cast_le.mpr bound
  clear bound
  push_cast at cast
  have logs := Real.logb_le_logb_of_le one_lt_two (by positivity) cast
  rw [Real.logb_pow, Real.logb_pow, Real.logb_self_eq_one one_lt_two] at logs
  have grows : Real.logb 2 ((N : ℝ) + 1) ≤ Real.logb 2 (N + 2) :=
    Real.logb_le_logb_of_le one_lt_two (Nat.cast_add_one_pos N) (add_le_add_left one_le_two _)
  have nonneg : 0 ≤ Real.logb 2 ((N : ℝ) + 1) :=
    Real.logb_nonneg one_lt_two (le_add_of_nonneg_left (Nat.cast_nonneg N))
  push_cast at logs
  linarith only [logs, grows, nonneg]

/-- On every tree satisfying the AVL invariant, with `N` nodes and height `h`:
`N ≥ Fib (h + 2) - 1`, `h ≤ 1.4405 · log₂ (N + 2)`, the descent of `insert_node`, `contains_node`
and `mark_node` for any key makes at most `h` nested calls, and, when `N < 2 ^ 64`, every stored
`int` height is below 94. -/
theorem avl_height_logarithmic (r : Registry) (key : Nat) :
    Nat.fib (r.tree.root.height + 2) - 1 ≤ r.tree.root.size ∧
      (r.tree.root.height : ℝ) ≤ 1.4405 * Real.logb 2 (r.tree.root.size + 2) ∧
      descentDepth r.tree.root key ≤ r.tree.root.height ∧
      (r.tree.root.size < 2 ^ 64 → r.tree.root.AllHeightsBelow 94) := by
  have fib_le := fib_height_le_size r.valid.heightsExact r.valid.balanced
  refine ⟨by omega, height_le_logb (two_pow_height_le _ _ fib_le),
    descentDepth_le_height key r.valid.heightsExact,
    fun small => allHeightsBelow_of_height_lt r.valid.heightsExact ?_⟩
  by_contra tall
  have reaches := Nat.fib_mono (show 94 ≤ r.tree.root.height + 2 by omega)
  have huge : 2 ^ 64 < Nat.fib 94 := by decide
  omega

/-- Inserting 1, 2 and 3 in that order into an empty registry rotates at the root and leaves a
tree of three nodes and height 2. -/
theorem avl_height_logarithmic_inserts :
    ∃ r : Registry, r = (((Registry.create.insert 1).1.insert 2).1.insert 3).1 ∧
      r.tree.root.size = 3 ∧ r.tree.root.height = 2 ∧ r.tree.root.AllHeightsBelow 94 :=
  ⟨_, rfl, by decide, by decide,
    (avl_height_logarithmic (((Registry.create.insert 1).1.insert 2).1.insert 3).1 0).2.2.2
      (by decide)⟩

end ForkscanRegistry.Avl
