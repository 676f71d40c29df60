import ForkscanRegistry.Avl.Invariant
import ForkscanRegistry.Avl.MarkMap
import Mathlib.Data.Finset.Sort

/-
Module: ForkscanRegistry.Avl.Refinement
Layer: Proofs
Purpose: The ordered registry refines the abstract `MarkMap`. On an ordered tree, the in-order
  walk of `insert_node`'s result is `insertEntry` of the walk (rotations relink nodes but keep
  every `(key, marked)` pair in place), `contains_node` decides membership, and `mark_node`'s walk
  is `markEntry` of the walk. With `Avl.Invariant` this gives the AVL invariant over every
  sequence of `avl_insert` / `avl_mark` calls, and a `Registry` type whose values carry the
  invariant and on which insertion cannot fault. Each operation of a `Registry` is the
  corresponding operation of the map on its walk (`Registry.insert_refines` and its siblings), and
  `avl_refines_markMap` reads these back as facts about the code's results.
Trusted boundary: none
Main exports: insertNode_inorder, containsNode_iff, markNode_inorder, avlInvariant_of_runCalls,
  Registry, Registry.insert_refines, Registry.mark_refines, Registry.contains_refines,
  avl_refines_markMap
-/

namespace ForkscanRegistry.Avl

open AvlNode

theorem ordered_node_iff {k h : Nat} {m : Bool} {l r : AvlNode} :
    (node k h m l r).Ordered ↔
      l.Ordered ∧ r.Ordered ∧ (∀ x ∈ l.keys, x < k) ∧ (∀ x ∈ r.keys, k < x) := by
  simp only [Ordered, keys_node, List.Sorted, List.pairwise_append, List.pairwise_cons,
    List.mem_cons]
  constructor
  · rintro ⟨lOrdered, ⟨above, rOrdered⟩, across⟩
    exact ⟨lOrdered, rOrdered, fun x mem => across x mem k (.inl rfl), above⟩
  · rintro ⟨lOrdered, rOrdered, below, above⟩
    refine ⟨lOrdered, ⟨above, rOrdered⟩, fun x mem y => ?_⟩
    rintro (rfl | mem')
    · exact below x mem
    · exact (below x mem).trans (above y mem')

/-- Rebalancing, whichever rotation it performs, keeps the in-order walk. -/
theorem rebalance_inorder {key : Nat} {t t' : AvlNode} (rebalances : rebalance key t = some t') :
    t'.inorder = t.inorder := by
  cases t with
  | null => cases rebalances
  | node k h m l r =>
      simp only [rebalance] at rebalances
      split_ifs at rebalances
      · rw [rightRotate_inorder rebalances]; rfl
      · rw [leftRotate_inorder rebalances]; rfl
      · obtain ⟨l', rotated, rebalances⟩ := Option.bind_eq_some.mp rebalances
        rw [rightRotate_inorder rebalances]
        simp [leftRotate_inorder rotated]
      · obtain ⟨r', rotated, rebalances⟩ := Option.bind_eq_some.mp rebalances
        rw [leftRotate_inorder rebalances]
        simp [rightRotate_inorder rotated]
      · cases rebalances
        rfl

/-- On an ordered tree, `insert_node` inserts `(key, unmarked)` at its sorted place in the walk,
or leaves the walk alone, and reports 1 exactly when `key` was absent. -/
theorem insertNode_inorder {key : Nat} : ∀ {t t' : AvlNode} {inserted : Bool}, t.Ordered →
    insertNode t key = some (t', inserted) →
      t'.inorder = insertEntry key t.inorder ∧ (inserted = true ↔ key ∉ t.keys)
  | null, t', inserted, _, inserts => by
      simp only [insertNode, Option.some.injEq, Prod.mk.injEq] at inserts
      obtain ⟨rfl, rfl⟩ := inserts
      simp [newNode, insertEntry, keys]
  | node k h m l r, t', inserted, ordered, inserts => by
      obtain ⟨lOrdered, rOrdered, below, above⟩ := ordered_node_iff.mp ordered
      rcases lt_trichotomy key k with lt | rfl | gt
      · obtain ⟨l', insertsL, rebalances⟩ := (insertNode_eq_some_of_lt lt).mp inserts
        obtain ⟨inorderL, insertedL⟩ := insertNode_inorder lOrdered insertsL
        have notRight : key ∉ r.keys := fun mem => by have := above key mem; omega
        refine ⟨?_, by simp [insertedL, keys_node, Nat.ne_of_lt lt, notRight]⟩
        rw [rebalance_inorder rebalances, inorder_node, inorder_node, inorderL,
          insertEntry_append_of_lt lt]
      · rw [insertNode_self] at inserts
        cases inserts
        exact ⟨(insertEntry_eq_self ordered (by simp [keys_node])).symm, by simp [keys_node]⟩
      · obtain ⟨r', insertsR, rebalances⟩ := (insertNode_eq_some_of_gt gt).mp inserts
        obtain ⟨inorderR, insertedR⟩ := insertNode_inorder rOrdered insertsR
        have notLeft : key ∉ l.keys := fun mem => by have := below key mem; omega
        refine ⟨?_, by simp [insertedR, keys_node, Nat.ne_of_gt gt, notLeft]⟩
        rw [rebalance_inorder rebalances, inorder_node, inorder_node, inorderR,
          insertEntry_append_of_gt gt _ _ fun e mem =>
            (below e.1 (List.mem_map_of_mem _ mem)).trans gt]

/-- On an ordered tree `contains_node` returns 1 exactly for the keys of the walk. -/
theorem containsNode_iff {key : Nat} : ∀ {t : AvlNode}, t.Ordered →
    (containsNode t key = true ↔ key ∈ t.keys)
  | null, _ => by simp [containsNode, keys]
  | node k h m l r, ordered => by
      obtain ⟨lOrdered, rOrdered, below, above⟩ := ordered_node_iff.mp ordered
      rcases lt_trichotomy key k with lt | rfl | gt
      · have notRight : key ∉ r.keys := fun mem => by have := above key mem; omega
        rw [containsNode_of_lt lt, containsNode_iff lOrdered]
        simp [keys_node, Nat.ne_of_lt lt, notRight]
      · simp [keys_node]
      · have notLeft : key ∉ l.keys := fun mem => by have := below key mem; omega
        rw [containsNode_of_gt gt, containsNode_iff rOrdered]
        simp [keys_node, Nat.ne_of_gt gt, notLeft]

/-- On an ordered tree `mark_node` sets the flag paired with `key` and no other, and reports 1
exactly when `key` is present. -/
theorem markNode_inorder {key : Nat} : ∀ {t : AvlNode}, t.Ordered →
    (markNode t key).1.inorder = markEntry key t.inorder ∧
      ((markNode t key).2 = true ↔ key ∈ t.keys)
  | null, _ => by simp [markNode, markEntry, keys]
  | node k h m l r, ordered => by
      obtain ⟨lOrdered, rOrdered, below, above⟩ := ordered_node_iff.mp ordered
      have notLeft : ∀ {x}, k ≤ x → x ∉ l.keys := fun le mem => by have := below _ mem; omega
      have notRight : ∀ {x}, x ≤ k → x ∉ r.keys := fun le mem => by have := above _ mem; omega
      rcases lt_trichotomy key k with lt | rfl | gt
      · obtain ⟨inorderL, foundL⟩ := @markNode_inorder key l lOrdered
        have rest : markEntry key ((k, m) :: r.inorder) = (k, m) :: r.inorder :=
          markEntry_of_not_mem (by simpa [keys, Nat.ne_of_lt lt] using notRight lt.le)
        rw [markNode_of_lt lt]
        refine ⟨?_, by simp [foundL, keys_node, Nat.ne_of_lt lt, notRight lt.le]⟩
        simp only [inorder_node, inorderL, markEntry_append, rest]
      · rw [markNode_self]
        refine ⟨?_, by simp [keys_node]⟩
        simp only [inorder_node, markEntry_append, markEntry_cons_self,
          markEntry_of_not_mem (notLeft le_rfl), markEntry_of_not_mem (notRight le_rfl)]
      · obtain ⟨inorderR, foundR⟩ := @markNode_inorder key r rOrdered
        rw [markNode_of_gt gt]
        refine ⟨?_, by simp [foundR, keys_node, Nat.ne_of_gt gt, notLeft gt.le]⟩
        simp only [inorder_node, inorderR, markEntry_append]
        rw [markEntry_of_not_mem (notLeft gt.le)]
        simp [markEntry, Nat.ne_of_lt gt]

/-! ### The AVL invariant along every sequence of calls -/

theorem avlCreate_invariant : AvlInvariant avlCreate.root :=
  ⟨List.sorted_nil, trivial, trivial⟩

/-- One `avl_insert` on a valid tree cannot fault and gives a valid tree. -/
theorem avlInsert_invariant {t : AvlTree} (valid : AvlInvariant t.root) (key : Nat) :
    ∃ t' inserted, avlInsert t key = some (t', inserted) ∧ AvlInvariant t'.root := by
  obtain ⟨root', inserted, inserts, shape⟩ :=
    insertNode_shape key valid.heightsExact valid.balanced
  refine ⟨⟨root'⟩, inserted, by simp [avlInsert, inserts], ⟨?_, shape.heightsExact,
    shape.balanced⟩⟩
  show (root'.inorder.map Prod.fst).Sorted _
  rw [(insertNode_inorder valid.ordered inserts).1]
  exact sorted_insertEntry valid.ordered

/-- One `avl_mark` keeps the tree valid: it changes one flag and no key or height. -/
theorem avlMark_invariant {t : AvlTree} (valid : AvlInvariant t.root) (key : Nat) :
    AvlInvariant (avlMark t key).1.root := by
  refine ⟨?_, markNode_heightsExact key valid.heightsExact, markNode_balanced key valid.balanced⟩
  show (markNode t.root key).1.keys.Sorted _
  rw [markNode_keys]
  exact valid.ordered

theorem applyCall_invariant {t : AvlTree} (valid : AvlInvariant t.root) :
    ∀ call : AvlCall, ∃ t', applyCall t call = some t' ∧ AvlInvariant t'.root
  | .insert key => by
      obtain ⟨t', _, inserts, valid'⟩ := avlInsert_invariant valid key
      exact ⟨t', by simp [applyCall, inserts], valid'⟩
  | .mark key => ⟨_, rfl, avlMark_invariant valid key⟩

theorem runCalls_invariant : ∀ {t : AvlTree} (calls : List AvlCall), AvlInvariant t.root →
    ∃ t', runCalls t calls = some t' ∧ AvlInvariant t'.root
  | t, [], valid => ⟨t, rfl, valid⟩
  | t, call :: calls, valid => by
      obtain ⟨t₁, applies, valid₁⟩ := applyCall_invariant valid call
      obtain ⟨t₂, runs, valid₂⟩ := runCalls_invariant calls valid₁
      exact ⟨t₂, by simp [applies, runs], valid₂⟩

theorem avlBuildFromArray_invariant (keys : List Nat) :
    ∃ t, avlBuildFromArray keys = some t ∧ AvlInvariant t.root := by
  rw [avlBuildFromArray_eq_runCalls]
  exact runCalls_invariant _ avlCreate_invariant

/-- Every tree reached from `avl_create`, or from any result of `avl_build_from_array`, by any
sequence of `avl_insert` and `avl_mark` calls with any keys is reached without a fault and has
strictly increasing in-order keys, exact stored heights and balance factors in {-1, 0, 1}. -/
theorem avlInvariant_of_runCalls (start : AvlTree)
    (initial : start = avlCreate ∨ ∃ keys, avlBuildFromArray keys = some start)
    (calls : List AvlCall) :
    ∃ t, runCalls start calls = some t ∧
      t.root.Ordered ∧ t.root.HeightsExact ∧ t.root.Balanced := by
  have valid : AvlInvariant start.root := by
    rcases initial with rfl | ⟨keys, builds⟩
    · exact avlCreate_invariant
    · obtain ⟨t, builds', valid⟩ := avlBuildFromArray_invariant keys
      exact (Option.some.inj (builds.symm.trans builds')) ▸ valid
  obtain ⟨t, runs, ordered, exact, balanced⟩ := runCalls_invariant calls valid
  exact ⟨t, runs, ordered, exact, balanced⟩

theorem avlInvariant_of_runCalls_fromCreate :
    ∃ t, runCalls avlCreate [.insert 50, .insert 30, .mark 30] = some t ∧
      t.root.Ordered ∧ t.root.HeightsExact ∧ t.root.Balanced :=
  avlInvariant_of_runCalls avlCreate (.inl rfl) _

/-! ### The registry as a type that carries its invariant -/

theorem avlInsert_eq_some {t t' : AvlTree} {key : Nat} {inserted : Bool} :
    avlInsert t key = some (t', inserted) ↔ insertNode t.root key = some (t'.root, inserted) := by
  simp only [avlInsert, bind, Option.bind_eq_some, pure, Option.some.injEq]
  constructor
  · rintro ⟨⟨root, inserted'⟩, inserts, same⟩
    cases same
    exact inserts
  · intro inserts
    exact ⟨_, inserts, rfl⟩

theorem avlInsert_valid {t t' : AvlTree} {key : Nat} {inserted : Bool}
    (valid : AvlInvariant t.root) (inserts : avlInsert t key = some (t', inserted)) :
    AvlInvariant t'.root := by
  obtain ⟨t'', inserted', inserts', valid'⟩ := avlInsert_invariant valid key
  rw [inserts] at inserts'
  cases inserts'
  exact valid'

/-- A registry tree together with the AVL invariant. On such a value `avl_insert` cannot fault,
so the operations below are total; they are the code's functions, not new ones. -/
structure Registry where
  tree : AvlTree
  valid : AvlInvariant tree.root

namespace Registry

/-- `avl_create()`. -/
def create : Registry := ⟨avlCreate, avlCreate_invariant⟩

/-- The abstraction function: the in-order walk of a valid tree, which is strictly sorted. -/
def toMarkMap (r : Registry) : MarkMap := ⟨avlInorder r.tree, r.valid.ordered⟩

theorem avlInsert_isSome (r : Registry) (key : Nat) : (avlInsert r.tree key).isSome := by
  obtain ⟨t', inserted, inserts, -⟩ := avlInsert_invariant r.valid key
  simp [inserts]

/-- `avl_insert(tree, key)` on a valid tree. -/
def insert (r : Registry) (key : Nat) : Registry × Bool :=
  let result := (avlInsert r.tree key).get (r.avlInsert_isSome key)
  (⟨result.1, avlInsert_valid r.valid (Option.eq_some_of_isSome (r.avlInsert_isSome key))⟩,
    result.2)

/-- `avl_mark(tree, key)` on a valid tree. -/
def mark (r : Registry) (key : Nat) : Registry × Bool :=
  (⟨(avlMark r.tree key).1, avlMark_invariant r.valid key⟩, (avlMark r.tree key).2)

/-- `avl_contains(tree, key)` on a valid tree. -/
def contains (r : Registry) (key : Nat) : Bool := avlContains r.tree key

theorem avlInsert_tree (r : Registry) (key : Nat) :
    avlInsert r.tree key = some ((r.insert key).1.tree, (r.insert key).2) :=
  Option.eq_some_of_isSome _

/-- Inserting into the registry is inserting into its abstract map. -/
theorem insert_refines (r : Registry) (key : Nat) :
    (r.insert key).1.toMarkMap = (r.toMarkMap.insert key).1 ∧
      (r.insert key).2 = (r.toMarkMap.insert key).2 := by
  obtain ⟨inorder, inserted⟩ :=
    insertNode_inorder r.valid.ordered (avlInsert_eq_some.mp (r.avlInsert_tree key))
  refine ⟨MarkMap.ext inorder, ?_⟩
  rw [Bool.eq_iff_iff, inserted]
  simp [MarkMap.insert, MarkMap.contains, toMarkMap, avlInorder, keys]

/-- Marking in the registry is marking in its abstract map. -/
theorem mark_refines (r : Registry) (key : Nat) :
    (r.mark key).1.toMarkMap = (r.toMarkMap.mark key).1 ∧
      (r.mark key).2 = (r.toMarkMap.mark key).2 := by
  obtain ⟨inorder, found⟩ := @markNode_inorder key _ r.valid.ordered
  refine ⟨MarkMap.ext inorder, ?_⟩
  rw [Bool.eq_iff_iff]
  show (markNode r.tree.root key).2 = true ↔ _
  rw [found]
  simp [MarkMap.mark, MarkMap.contains, toMarkMap, avlInorder, keys]

theorem contains_refines (r : Registry) (key : Nat) :
    r.contains key = r.toMarkMap.contains key := by
  rw [Bool.eq_iff_iff, contains, avlContains, containsNode_iff r.valid.ordered]
  simp [MarkMap.contains, toMarkMap, avlInorder, keys]

end Registry

/-! ### Building from an array -/

/-- Inserting any keys into a valid tree with no marked entry gives a valid tree with no marked
entry whose keys are the old ones and the inserted ones. -/
theorem runCalls_inserts : ∀ (keys : List Nat) {t : AvlTree}, AvlInvariant t.root →
    (∀ e ∈ avlInorder t, e.2 = false) →
    ∃ t', runCalls t (keys.map .insert) = some t' ∧ AvlInvariant t'.root ∧
      (∀ e ∈ avlInorder t', e.2 = false) ∧ ∀ x, x ∈ t'.root.keys ↔ x ∈ t.root.keys ∨ x ∈ keys
  | [], t, valid, unmarked => ⟨t, rfl, valid, unmarked, by simp⟩
  | key :: keys, t, valid, unmarked => by
      obtain ⟨t₁, inserted, inserts, valid₁⟩ := avlInsert_invariant valid key
      have walk := (insertNode_inorder valid.ordered (avlInsert_eq_some.mp inserts)).1
      have unmarked₁ : ∀ e ∈ avlInorder t₁, e.2 = false := fun e mem => by
        have mem' : e ∈ insertEntry key t.root.inorder := walk ▸ (mem : e ∈ t₁.root.inorder)
        rcases mem_insertEntry mem' with rfl | old
        · rfl
        · exact unmarked e old
      obtain ⟨t₂, runs, valid₂, unmarked₂, keys₂⟩ := runCalls_inserts keys valid₁ unmarked₁
      refine ⟨t₂, by simp [applyCall, inserts, runs], valid₂, unmarked₂, fun x => ?_⟩
      rw [keys₂, AvlNode.keys, walk, mem_insertEntry_keys]
      simp only [AvlNode.keys, List.mem_cons]
      tauto

/-- `avl_build_from_array(keys, n)` walks as the distinct values of `keys[0..n)` in increasing
order, each unmarked. -/
theorem avlBuildFromArray_inorder (keys : List Nat) :
    ∃ t, avlBuildFromArray keys = some t ∧
      avlInorder t = (keys.toFinset.sort (· ≤ ·)).map fun k => (k, false) := by
  rw [avlBuildFromArray_eq_runCalls]
  obtain ⟨t, runs, valid, unmarked, members⟩ :=
    runCalls_inserts keys avlCreate_invariant (by simp [avlInorder, avlCreate])
  refine ⟨t, runs, ?_⟩
  have sorted : t.root.keys.Sorted (· < ·) := valid.ordered
  have sortedKeys : t.root.keys = keys.toFinset.sort (· ≤ ·) :=
    List.eq_of_perm_of_sorted
      ((List.perm_ext_iff_of_nodup sorted.nodup (Finset.sort_nodup _ _)).mpr fun x => by
        rw [members]; simp [avlCreate, AvlNode.keys])
      (sorted.imp le_of_lt) (Finset.sort_sorted _ _)
  rw [← sortedKeys, AvlNode.keys, List.map_map]
  conv_lhs => rw [← List.map_id (avlInorder t)]
  exact List.map_congr_left fun e mem => Prod.ext rfl (unmarked e mem)

example : (avlBuildFromArray [50, 30, 70, 20, 40, 60, 80]).map avlInorder =
    some [(20, false), (30, false), (40, false), (50, false), (60, false), (70, false),
      (80, false)] := by
  decide

/-- The tree registry refines a finite map from keys to mark flags: on every tree satisfying
the AVL invariant and for every key, `avl_insert`, `avl_contains` and `avl_mark` act on the
in-order walk as the abstract operations do, and building from any array walks as its distinct
values, sorted and unmarked. -/
theorem avl_refines_markMap (r : Registry) (key : Nat) (keys : List Nat) :
    (∃ t' inserted, avlInsert r.tree key = some (t', inserted) ∧
      (inserted = true ↔ key ∉ r.tree.root.keys) ∧
      (key ∈ r.tree.root.keys → avlInorder t' = avlInorder r.tree) ∧
      (key ∉ r.tree.root.keys → avlInorder t' = insertEntry key (avlInorder r.tree))) ∧
    (avlContains r.tree key = true ↔ key ∈ r.tree.root.keys) ∧
    ((avlMark r.tree key).2 = true ↔ key ∈ r.tree.root.keys) ∧
    avlInorder (avlMark r.tree key).1 = markEntry key (avlInorder r.tree) ∧
    ∃ t, avlBuildFromArray keys = some t ∧
      avlInorder t = (keys.toFinset.sort (· ≤ ·)).map fun k => (k, false) := by
  obtain ⟨walk, inserted⟩ := r.insert_refines key
  obtain ⟨markWalk, found⟩ := r.mark_refines key
  have contains : ∀ k, r.toMarkMap.contains k = true ↔ k ∈ r.tree.root.keys := fun k => by
    simp [MarkMap.contains, Registry.toMarkMap, avlInorder, AvlNode.keys]
  have insertWalk : avlInorder (r.insert key).1.tree = insertEntry key (avlInorder r.tree) :=
    congrArg MarkMap.entries walk
  refine ⟨⟨_, _, r.avlInsert_tree key, ?_, fun present => ?_, fun _ => insertWalk⟩,
    (Bool.eq_iff_iff.mp (r.contains_refines key)).trans (contains key), ?_,
    congrArg MarkMap.entries markWalk, avlBuildFromArray_inorder keys⟩
  · rw [inserted, MarkMap.insert, Bool.not_eq_true', ← Bool.not_eq_true, contains]
  · rw [insertWalk]
    exact insertEntry_eq_self r.valid.ordered present
  · exact (Bool.eq_iff_iff.mp found).trans (contains key)

end ForkscanRegistry.Avl
